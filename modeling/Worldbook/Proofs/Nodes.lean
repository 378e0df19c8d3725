import Worldbook.Proofs.Lines

/-!
# Written statements read as statements

The text of a node is its indentation, its core and the end of the line. Reading the core gives a
statement, and reading the nodes of a body gives their statements in order.
-/

namespace Worldbook

/-! ## The text of a node -/

namespace Node

/-- The text of a node without the indentation in front and the end of the line behind it. -/
def core (indent width : Nat) : Node → List Char
  | .line words => spaced words
  | .block header [] => spaced header ++ (" do".toList ++ " end".toList)
  | .block header (first :: rest) =>
    spaced header ++ (" do".toList ++ '\n' :: ((texts indent (width + indent) (first :: rest)).toList ++
      (List.replicate width ' ' ++ "end".toList)))

theorem spaced_append {ws vs : List String} (h : ws ≠ []) (h' : vs ≠ []) :
    spaced (ws ++ vs) = spaced ws ++ ' ' :: spaced vs := by
  simp [spaced, String.intercalate_append_of_ne_nil h h']

theorem toList_indented (width : Nat) (words : List String) :
    (indented width words).toList = List.replicate width ' ' ++ (spaced words ++ ['\n']) := by
  simp [indented, spaced]

def words : Node → List String
  | .line words => words
  | .block header _ => header

theorem toList_text (indent width : Nat) {n : Node} (h : n.words ≠ []) :
    (text indent width n).toList = List.replicate width ' ' ++ (n.core indent width ++ ['\n']) := by
  match n with
  | .line words => rw [text, toList_indented]; rfl
  | .block header [] =>
    have hh : header ≠ [] := h
    rw [text, toList_indented, spaced_append hh (by simp)]
    rfl
  | .block header (first :: rest) =>
    have hh : header ≠ [] := h
    rw [text, String.toList_append, String.toList_append, toList_indented, toList_indented,
      spaced_append hh (by simp)]
    simp [core]

end Node

/-! ## Reading nodes -/

/-- A node is read as a statement with the property, and its numbers are in range. -/
structure Node.Parses (n : Node) (Q : Statement → Prop) : Prop where
  words : n.words ≠ []
  start : ∀ indent width, ∃ ch cs, n.core indent width = ch :: cs ∧ isHead ch = true
  notEnd : ∀ (indent width : Nat) (c : Cursor) (tail : List Char),
    c.rest = n.core indent width ++ '\n' :: tail → c.atWord "end" = false
  run : ∀ (indent width : Nat) (c : Cursor) (tail : List Char) (fuel : Nat),
    c.rest = n.core indent width ++ '\n' :: tail → 2 * c.rest.length + 1 ≤ fuel →
    ∃ s d, c.statement fuel = .ok (s, d) ∧ d.rest = '\n' :: tail ∧ s.overflows = [] ∧ Q s

theorem Node.Parses.imp {n : Node} {P Q : Statement → Prop} (h : n.Parses P) (hpq : ∀ s, P s → Q s) :
    n.Parses Q :=
  ⟨h.words, h.start, h.notEnd, fun indent width c tail fuel hc hf =>
    let ⟨s, d, hs, hd, ho, hp⟩ := h.run indent width c tail fuel hc hf
    ⟨s, d, hs, hd, ho, hpq s hp⟩⟩

/-- A node is read as one statement, which has whatever the node is shown to be read as. -/
theorem Node.Parses.and {n : Node} {P Q : Statement → Prop} (hp : n.Parses P) (hq : n.Parses Q) :
    n.Parses fun s => P s ∧ Q s := by
  refine ⟨hp.words, hp.start, hp.notEnd, fun indent width c tail fuel hc hf => ?_⟩
  obtain ⟨s, d, hs, hd, ho, hP⟩ := hp.run indent width c tail fuel hc hf
  obtain ⟨s', d', hs', -, -, hQ⟩ := hq.run indent width c tail fuel hc hf
  rw [hs] at hs'
  cases hs'
  exact ⟨s, d, hs, hd, ho, hP, hQ⟩

def ParsesAll : List Node → (List Statement → Prop) → Prop
  | [], Q => Q []
  | n :: ns, Q => n.Parses fun s => ParsesAll ns fun ss => Q (s :: ss)

theorem ParsesAll.imp {P Q : List Statement → Prop} (hpq : ∀ ss, P ss → Q ss) : ∀ {ns : List Node},
    ParsesAll ns P → ParsesAll ns Q
  | [], h => hpq [] h
  | _ :: _, h => Node.Parses.imp h fun s => ParsesAll.imp fun ss => hpq (s :: ss)

theorem ParsesAll.append {ms : List Node} {Q : List Statement → Prop} (hq : ParsesAll ms Q) :
    ∀ {ns : List Node} {P R : List Statement → Prop}, ParsesAll ns P →
    (∀ ss ts, P ss → Q ts → R (ss ++ ts)) →
    ParsesAll (ns ++ ms) R
  | [], _, _, hp, h => hq.imp fun ts => h [] ts hp
  | _ :: _, _, _, hp, h => Node.Parses.imp hp fun s hs => hq.append hs fun ss ts => h (s :: ss) ts

inductive Laid (indent : Nat) (tail : List Char) : List Node → List Char → Prop
  | nil {sep : List Char} (hsep : ∀ ch ∈ sep, Cursor.isSeparator ch = true) :
      Laid indent tail [] (sep ++ tail)
  | cons {sep rest : List Char} (hsep : ∀ ch ∈ sep, Cursor.isSeparator ch = true) (n : Node)
      (width : Nat) {ns : List Node} (h : Laid indent tail ns rest) :
      Laid indent tail (n :: ns) (sep ++ (n.core indent width ++ '\n' :: rest))

theorem Laid.separated {indent : Nat} {tail : List Char} {ns : List Node} {text : List Char}
    (h : Laid indent tail ns text) {sep : List Char} (hsep : ∀ ch ∈ sep, Cursor.isSeparator ch = true) :
    Laid indent tail ns (sep ++ text) := by
  cases h with
  | nil hs =>
    rw [← List.append_assoc]
    exact .nil fun ch hch => (List.mem_append.1 hch).elim (hsep ch) (hs ch)
  | cons hs n width h =>
    rw [← List.append_assoc]
    exact .cons (fun ch hch => (List.mem_append.1 hch).elim (hsep ch) (hs ch)) n width h

theorem isSeparator_of_mem_replicate {n : Nat} :
    ∀ ch ∈ List.replicate n ' ', Cursor.isSeparator ch = true := by
  intro ch hch
  rw [List.eq_of_mem_replicate hch]
  decide

theorem laid_texts {indent width : Nat} {tail : List Char} {sep : List Char}
    (hsep : ∀ ch ∈ sep, Cursor.isSeparator ch = true) : ∀ {ns : List Node}, (∀ n ∈ ns, n.words ≠ []) →
    Laid indent tail ns ((Node.texts indent width ns).toList ++ (sep ++ tail))
  | [], _ => by simpa [Node.texts] using Laid.nil hsep
  | n :: ns, h => by
    rw [Node.texts, String.toList_append, Node.toList_text indent width (h n (List.mem_cons_self ..))]
    have ih : Laid indent tail ns ((Node.texts indent width ns).toList ++ (sep ++ tail)) :=
      laid_texts hsep fun m hm => h m (List.mem_cons_of_mem _ hm)
    simpa using Laid.cons (isSeparator_of_mem_replicate (n := width)) n width ih

/-- The statements of a text end at `tail`, and `rest` is what is left behind them. -/
def Finishes (header : Option Span) (tail rest : List Char) : Prop :=
  ∀ (c : Cursor) (sep : List Char) (fuel : Nat), (∀ ch ∈ sep, Cursor.isSeparator ch = true) →
    c.rest = sep ++ tail →
    ∃ d, c.statements (fuel + 1) header = .ok ([], d) ∧ d.rest = rest

theorem trivia_of_all {p : Char → Bool} {cs : List Char} (h : ∀ ch ∈ cs, p ch = true) :
    Cursor.trivia p false cs = cs := by
  induction cs with
  | nil => rfl
  | cons ch cs ih =>
    rw [Cursor.trivia, if_pos (h ch (List.mem_cons_self ..)), ih fun x hx =>
      h x (List.mem_cons_of_mem _ hx)]

theorem finishes_text : Finishes none [] [] := by
  intro c sep fuel hsep hc
  rw [List.append_nil] at hc
  have hrest : c.skipSeparators.rest = [] := by
    rw [Cursor.skipSeparators, hc, trivia_of_all hsep]
    exact Cursor.past_rest (by rw [hc, List.append_nil])
  exact ⟨c.skipSeparators, by simp [Cursor.statements, hrest], hrest⟩

theorem finishes_block (span : Span) (tail : List Char) :
    Finishes (some span) ("end".toList ++ '\n' :: tail) ('\n' :: tail) := by
  intro c sep fuel hsep hc
  have hskip : c.skipSeparators = c.past sep := by
    rw [Cursor.skipSeparators, hc]
    exact congrArg c.past (Cursor.trivia_of_solid hsep (by decide) (by decide) (by decide))
  have hrest := Cursor.past_rest hc
  have hat : (c.past sep).atWord "end" = true := by
    rw [Cursor.atWord, Bool.and_eq_true, Cursor.startsWith_iff]
    refine ⟨⟨_, hrest⟩, ?_⟩
    rw [hrest]
    exact endsWord_of_closed (show Closed ('\n' :: tail) from fun ch hch => by cases hch; decide)
  refine ⟨(c.past sep).past "end".toList, ?_, Cursor.past_rest hrest⟩
  have hne : (c.past sep).rest.isEmpty = false := by rw [hrest]; rfl
  simp only [Cursor.statements, hskip, hne, hat, Bool.false_eq_true, if_false, if_true]

theorem isSeparator_of_isHead {ch : Char} (h : isHead ch = true) : Cursor.isSeparator ch = false := by
  simp [Cursor.isSeparator, Cursor.isBlank_of_isHead h, isHead_ne h (d := ';') (by decide)]

/-- Nodes that are laid out are read in order. -/
theorem statements_of_laid {header : Option Span} {tail rest : List Char}
    (hfin : Finishes header tail rest) {indent : Nat} : ∀ {ns : List Node} {Q : List Statement → Prop},
    ParsesAll ns Q → ∀ (c : Cursor) (fuel : Nat), Laid indent tail ns c.rest →
    2 * c.rest.length + 2 ≤ fuel →
    ∃ ss d, c.statements fuel header = .ok (ss, d) ∧ d.rest = rest ∧
    Statement.overflowsAll ss = [] ∧ Q ss
  | [], Q, hq, c, fuel, hlaid, hf => by
    obtain ⟨fuel, rfl⟩ : ∃ k, fuel = k + 1 := ⟨fuel - 1, by omega⟩
    generalize hc : c.rest = text at hlaid
    cases hlaid with
    | nil hsep =>
      obtain ⟨d, hd, hrest⟩ := hfin c _ fuel hsep hc
      exact ⟨[], d, hd, hrest, rfl, hq⟩
  | n :: ns, Q, hq, c, fuel, hlaid, hf => by
    obtain ⟨fuel, rfl⟩ : ∃ k, fuel = k + 1 := ⟨fuel - 1, by omega⟩
    generalize hc : c.rest = text at hlaid
    cases hlaid with
    | @cons sep more hsep n width ns hns =>
      obtain ⟨ch, cs, hcs, hhead⟩ := Node.Parses.start hq indent width
      have hskip : c.skipSeparators = c.past sep := by
        rw [Cursor.skipSeparators, hc, hcs, List.cons_append, Cursor.trivia_of_solid hsep
          (isSeparator_of_isHead hhead) (isHead_ne hhead (by decide)) (isHead_ne hhead (by decide))]
      have hrest := Cursor.past_rest hc
      have hne : (c.past sep).rest.isEmpty = false := by rw [hrest, hcs]; rfl
      have hlen := congrArg List.length hc
      have hlen' := congrArg List.length hrest
      simp only [List.length_append, List.length_cons] at hlen hlen'
      -- one statement is read, and what is left is laid out for the others
      obtain ⟨s, d, hs, hd, hover, hmore⟩ :=
        Node.Parses.run hq indent width (c.past sep) more fuel hrest (by omega)
      have hlaid : Laid indent tail ns d.rest := by
        rw [hd]
        exact hns.separated (List.all_eq_true.1 (show ['\n'].all Cursor.isSeparator = true by decide))
      have hcore : 0 < (n.core indent width).length := by rw [hcs]; exact Nat.succ_pos _
      obtain ⟨ss, e, hss, he, hover', hQ⟩ := statements_of_laid hfin hmore d fuel hlaid
        (by rw [hd, List.length_cons]; omega)
      refine ⟨s :: ss, e, ?_, he, by rw [Statement.overflowsAll, hover, hover', List.append_nil], hQ⟩
      simp only [Cursor.statements, hskip, hne, Bool.false_eq_true, if_false,
        Node.Parses.notEnd hq indent width _ _ hrest, hs, bind, Except.bind, hss, pure, Except.pure]

theorem ParsesAll.words_ne_nil : ∀ {ns : List Node} {Q : List Statement → Prop}, ParsesAll ns Q →
    ∀ n ∈ ns, n.words ≠ []
  | n :: ns, Q, h, m, hm => by
    -- the rest is read behind a first statement, so one has to be read
    obtain ⟨s, _, _, _, _, hmore⟩ :=
      Node.Parses.run h 0 0 ⟨0, .origin, n.core 0 0 ++ ['\n']⟩ [] _ rfl (le_refl _)
    rcases List.mem_cons.1 hm with rfl | hm
    · exact Node.Parses.words h
    · exact hmore.words_ne_nil m hm

theorem parse_of_laid {ns : List Node} {Q : List Statement → Prop} (h : ParsesAll ns Q) (file : FileId)
    {indent : Nat} {text : String} (hlaid : Laid indent [] ns text.toList) :
    ∃ ss, parse file text = .ok ss ∧ Statement.overflowsAll ss = [] ∧ Q ss := by
  obtain ⟨ss, d, hss, -, hover, hq⟩ :=
    statements_of_laid finishes_text h (Cursor.ofText file text) _ hlaid (Nat.le_refl _)
  refine ⟨ss, ?_, hover, hq⟩
  rw [parse, hss]
  rfl

/-! ## Lines and blocks -/

structure Opens (w : String) : Prop where
  head : ∃ ch cs, w.toList = ch :: cs ∧ isHead ch = true
  notEnd : ∀ (c : Cursor) (tail : List Char), c.rest = w.toList ++ tail → EndsPiece tail →
    c.atWord "end" = false

theorem opens_of_reads {w : String} {P : Value → Prop} (h : Reads w.toList P) : Opens w :=
  ⟨h.head, fun c tail hc ht => (h.solid c tail hc ht.closed).notEnd⟩

theorem spaced_cons_eq (w : String) (ws : List String) : ∃ more, spaced (w :: ws) = w.toList ++ more ∧
    ∀ tail, EndsPiece tail → EndsPiece (more ++ tail) := by
  cases ws with
  | nil => exact ⟨[], by simp, fun _ h => h⟩
  | cons v ws => exact ⟨_, spaced_cons w v ws, fun _ _ => ⟨_, .inl rfl⟩⟩

theorem Node.parses_line {w : String} {ws : List String} {cues : List Cue} (hw : Opens w)
    (h : SpelledAll (w :: ws) cues) {Q : Statement → Prop}
    (hq : ∀ ps span, List.Forall₂ (fun cue p => cue p) cues ps →
      ∃ s, Statement.ofLine ps span = .ok s ∧ s.overflows = [] ∧ Q s) :
        (Node.line (w :: ws)).Parses Q := by
  obtain ⟨more, hmore, hends⟩ := spaced_cons_eq w ws
  obtain ⟨ch, cs, hcs, hhead⟩ := hw.head
  refine ⟨by simp [words], fun _ _ =>
    ⟨ch, cs ++ more, by rw [core, hmore, hcs, List.cons_append], hhead⟩,
    fun indent width c tail hc => ?_, fun indent width c tail fuel hc hf => ?_⟩
  · rw [core, hmore, List.append_assoc] at hc
    exact hw.notEnd c _ hc (hends _ ⟨_, .inr rfl⟩)
  · obtain ⟨fuel, rfl⟩ : ∃ k, fuel = k + 1 := ⟨fuel - 1, by omega⟩
    obtain ⟨ps, stop, d, hps, hscan, hd⟩ := Cursor.scanLine_line h (by simp) hc
    obtain ⟨s, hs, ho, hQ⟩ := hq ps ⟨c.file, c.pos, stop⟩ hps
    refine ⟨s, d, ?_, hd, ho, hQ⟩
    simp only [Cursor.statement, hscan, bind, Except.bind, Bool.false_eq_true, if_false, hs,
      pure, Except.pure]

theorem Node.parses_block {w : String} {ws : List String} {cues : List Cue} {body : List Node}
    {P : List Statement → Prop} (hw : Opens w) (h : SpelledAll (w :: ws) cues)
    (hbody : ParsesAll body P) {Q : Statement → Prop}
    (hq : ∀ ps header, List.Forall₂ (fun cue p => cue p) cues ps → ∃ name quoted labels,
      Statement.blockHeader ps header = .ok (name, quoted, labels) ∧ Value.overflowsAll labels = [] ∧
      ∀ ss span, P ss → Q (.block name quoted labels ss span)) :
        (Node.block (w :: ws) body).Parses Q := by
  obtain ⟨more, hmore, hends⟩ := spaced_cons_eq w ws
  obtain ⟨ch, cs, hcs, hhead⟩ := hw.head
  -- behind `do` the body is laid out, up to `end`
  have hcore : ∀ indent width tail, ∃ text, (Node.block (w :: ws) body).core indent width ++
    '\n' :: tail =
      spaced (w :: ws) ++ (" do".toList ++ text) ∧ EndsPiece text ∧
      Laid indent ("end".toList ++ '\n' :: tail) body text := by
    intro indent width tail
    cases body with
    | nil =>
      refine ⟨' ' :: ("end".toList ++ '\n' :: tail), by simp [core], ⟨_, .inl rfl⟩, ?_⟩
      exact .nil (List.all_eq_true.1 (show [' '].all Cursor.isSeparator = true by decide))
    | cons first rest =>
      refine ⟨'\n' :: ((texts indent (width + indent) (first :: rest)).toList ++
        (List.replicate width ' ' ++ ("end".toList ++ '\n' :: tail))), by simp [core], ⟨_,
        .inr rfl⟩, ?_⟩
      exact (laid_texts isSeparator_of_mem_replicate hbody.words_ne_nil).separated
        (List.all_eq_true.1 (show ['\n'].all Cursor.isSeparator = true by decide))
  refine ⟨by simp [words], fun indent width => ?_, fun indent width c tail hc => ?_,
    fun indent width c tail fuel hc hf => ?_⟩
  · have : ∃ text, (Node.block (w :: ws) body).core indent width = spaced (w :: ws) ++ text := by
      cases body <;> exact ⟨_, rfl⟩
    obtain ⟨text, ht⟩ := this
    exact ⟨ch, cs ++ (more ++ text), by rw [ht, hmore, hcs, List.append_assoc, List.cons_append], hhead⟩
  · obtain ⟨text, ht, _⟩ := hcore indent width tail
    rw [ht, hmore, List.append_assoc] at hc
    exact hw.notEnd c _ hc (hends _ ⟨_, .inl rfl⟩)
  · obtain ⟨fuel, rfl⟩ : ∃ k, fuel = k + 1 := ⟨fuel - 1, by omega⟩
    obtain ⟨text, ht, hends', hlaid⟩ := hcore indent width tail
    rw [ht] at hc
    obtain ⟨ps, stop, d, hps, hscan, hd⟩ := Cursor.scanLine_block h (by simp) hends' hc
    obtain ⟨name, quoted, labels, hheader, hover, hQ⟩ := hq ps (c.spanTo d) hps
    have hlen := congrArg List.length hc
    simp only [List.length_append] at hlen
    obtain ⟨ss, e, hss, he, hover', hP⟩ :=
      statements_of_laid (finishes_block (c.spanTo d) tail) hbody d fuel
      (by rw [hd]; exact hlaid) (by
        rw [hd]
        have : " do".toList.length = 3 := rfl
        omega)
    refine ⟨.block name quoted labels ss (c.spanTo e), e, ?_, he, ?_, hQ ss _ hP⟩
    · simp only [Cursor.statement, hscan, bind, Except.bind, if_true, hheader, hss, pure, Except.pure]
    · rw [Statement.overflows, hover, hover', List.append_nil]

end Worldbook
