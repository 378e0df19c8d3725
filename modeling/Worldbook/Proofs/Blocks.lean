import Worldbook.Proofs.Nesting

/-!
# Blocks in order

A line is read piece by piece and a body statement by statement. Each takes at least one character,
so the bound of the readers is enough for every text, and what they have read stands in order.
-/

namespace Worldbook

theorem Span.Nests.append {c d e : Cursor} {ss ts : List Span} (hs : (c.spanTo d).Nests ss)
    (ht : (d.spanTo e).Nests ts) (hcd : c.Reaches d) (hde : d.Reaches e) :
    (c.spanTo e).Nests (ss ++ ts) := by
  have hstart := hcd.offset_le
  have hstop := hde.offset_le
  refine ⟨?_, ?_⟩
  · intro t hmem
    cases List.mem_append.1 hmem with
    | inl hmem =>
      have ht := hs.inside t hmem
      exact ⟨ht.1, ht.2.trans hstop⟩
    | inr hmem =>
      have ht := ht.inside t hmem
      exact ⟨hstart.trans ht.1, ht.2⟩
  · rw [List.pairwise_append]
    refine ⟨hs.ordered, ht.ordered, ?_⟩
    intro s hs' t ht'
    exact (hs.inside s hs').2.trans (ht.inside t ht').1

namespace Cursor

variable {o c : Cursor}

/-! ## Lines -/

theorem operator?_ne_nil {cs text : List Char} {operator : Operator}
    (h : operator? cs = some (operator, text)) : text ≠ [] := by
  unfold operator? at h
  split at h <;> cases h <;> simp

theorem proceeds_scanPiece (ho : o.Reaches c) :
    Proceeds o c (fun p d => c.Advances d ∧ p.span = c.spanTo d ∧ p.Sound o) c.scanPiece := by
  unfold scanPiece
  split
  · next operator text hop =>
    have hadvances := advances_past (operator?_ne_nil hop) (operator?_isPrefix hop)
    exact proceeds_ok hadvances.reaches ⟨hadvances, rfl, holds_spanTo ho hadvances.reaches⟩
  · split
    · exact proceeds_fail (by simp) ho
    · refine Proceeds.bind (proceeds_scanValue ho) ?_
      intro v d _ ⟨hadvances, hspan, hv⟩
      exact proceeds_ok (.refl d) ⟨hadvances, hspan, hv⟩

theorem advances_atWord {word : String} (hword : word.toList ≠ []) (h : c.atWord word = true) :
    c.Advances (c.past word.toList) :=
  advances_past hword (List.isPrefixOf_iff_prefix.1 (Bool.and_eq_true_iff.1 h).1)

/-- The pieces of the line stand between `c` and a place `b`, where the line
stops; a `do` behind them is taken too. -/
structure LineTo (o c : Cursor) (line : Line) (d : Cursor) : Prop where
  along : ∃ b, Along c b (line.pieces.map Piece.span) ∧ b.Reaches d ∧ line.stop = b.pos ∧
    (line.opensBlock = true → b.Advances d)
  sound : ∀ p ∈ line.pieces, p.Sound o

theorem proceeds_linePieces (n : Nat) (ho : o.Reaches c) (hn : c.rest.length + 1 ≤ n) :
    Proceeds o c (LineTo o c) (c.linePieces n c.pos) := by
  induction n generalizing c with
  | zero => exact absurd hn (by simp)
  | succ n ih =>
    have hskip := c.reaches_skipInlineBlanks
    have hle := hskip.length_le
    rw [linePieces]
    generalize c.skipInlineBlanks = d at hskip hle ⊢
    dsimp only
    split
    · next hdo =>
      have htaken := hskip.advances (advances_atWord (by decide) hdo)
      exact proceeds_ok htaken.reaches
        ⟨⟨c, .nil (.refl c), htaken.reaches, rfl, fun _ => htaken⟩, by simp⟩
    split
    · exact proceeds_ok hskip ⟨⟨c, .nil (.refl c), hskip, rfl, by simp⟩, by simp⟩
    · refine Proceeds.since ?_ hskip
      refine Proceeds.bind (proceeds_scanPiece (ho.trans hskip)) ?_
      intro piece e hde hone
      obtain ⟨hadvances, hspan, hpiece⟩ := hone
      have hlt := hadvances.length_lt
      refine Proceeds.bind (ih (ho.trans (hskip.trans hde)) (by omega)) ?_
      intro line rest _ hrest
      obtain ⟨⟨b, halong, hb, hstop, hdo⟩, hpieces⟩ := hrest
      refine proceeds_ok (.refl rest) ⟨⟨b, ?_, hb, hstop, hdo⟩,
        List.forall_mem_cons.2 ⟨hpiece, hpieces⟩⟩
      rw [List.map_cons, hspan]
      exact .cons hskip hadvances halong

theorem proceeds_scanLine (ho : o.Reaches c) : Proceeds o c (LineTo o c) c.scanLine :=
  proceeds_linePieces _ ho (Nat.le_refl _)

/-! ## Statements -/

def StatementTo (o c : Cursor) (s : Statement) (d : Cursor) : Prop :=
  ∃ b, c.Advances b ∧ b.Reaches d ∧ s.span = c.spanTo b ∧ s.Sound o

/-- What the reader of a body or a text has read. A body ends behind its `end`. -/
structure BodyTo (o c : Cursor) (header : Option Span) (ss : List Statement) (d : Cursor) : Prop where
  along : Along c d (ss.map Statement.span)
  sound : ∀ s ∈ ss, s.Sound o
  advances : header.isSome = true → c.Advances d

structure ProceedsStatements (o : Cursor) (n : Nat) : Prop where
  statement : ∀ c : Cursor, o.Reaches c → 2 * c.rest.length + 1 ≤ n →
    Proceeds o c (StatementTo o c) (c.statement n)
  statements : ∀ (header : Option Span) (c : Cursor), (∀ s ∈ header, o.Holds s) → o.Reaches c →
    2 * c.rest.length + 2 ≤ n → Proceeds o c (BodyTo o c header) (Cursor.statements n header c)

theorem ofLine_ne_nil {pieces : List Piece} {line : Span} {s : Statement}
    (h : Statement.ofLine pieces line = .ok s) : pieces ≠ [] := by
  intro hnil
  subst hnil
  cases h

theorem ProceedsStatements.statement_succ {n : Nat} (h : ProceedsStatements o n) (ho : o.Reaches c)
    (hn : 2 * c.rest.length + 1 ≤ n + 1) : Proceeds o c (StatementTo o c) (c.statement (n + 1)) := by
  rw [Cursor.statement]
  refine Proceeds.bind (proceeds_scanLine ho) ?_
  rintro ⟨pieces, opensBlock, stop⟩ d hcd ⟨⟨b, halong, hbd, hstop, hdo⟩, hpieces⟩
  dsimp only at halong hstop hdo hpieces ⊢
  have hcb := halong.reaches
  by_cases hopens : opensBlock = true
  · rw [if_pos hopens]
    have hadvances := hcb.advances (hdo hopens)
    have hlt := hadvances.length_lt
    have hheader := holds_spanTo ho hcd
    have hin : PiecesIn o (c.spanTo d) pieces := ⟨hheader, (halong.upTo hbd).nests, hpieces⟩
    refine (Statement.shaped_blockHeader hin hheader).proceeds ?_
    rintro ⟨name, quoted, labels⟩ hlabels
    have hbody := h.statements (some (c.spanTo d)) d (by simp [hheader]) (ho.trans hcd) (by omega)
    refine Proceeds.bind hbody ?_
    intro body e hde hbody
    have hblock := hadvances.trans hde
    refine proceeds_ok (.refl e) ⟨e, hblock, .refl e, rfl,
      Statement.sound_iff.2 ⟨⟨?_, ?_, hlabels.sound, Statement.narrow_of_none rfl⟩, hbody.sound⟩⟩
    · exact holds_spanTo ho hblock.reaches
    · exact hlabels.nests.append hbody.along.nests hcd hde
  · rw [if_neg hopens]
    subst hstop
    have hin : PiecesIn o (c.spanTo b) pieces := ⟨holds_spanTo ho hcb, halong.nests, hpieces⟩
    have hshaped := Statement.shaped_ofLine hin
    -- a line without pieces has no shape
    have hread : Shaped o (fun s => pieces ≠ [] ∧ s.Fills o (c.spanTo b))
      (Statement.ofLine pieces (c.spanTo b)) :=
      ⟨fun s hs => ⟨ofLine_ne_nil hs, hshaped.1 s hs⟩, hshaped.2⟩
    refine hread.proceeds ?_
    intro s hs
    obtain ⟨hne, hspan, hs⟩ := hs
    exact proceeds_ok (.refl d) ⟨b, halong.advances (by simpa using hne), hbd, hspan, hs⟩

theorem ProceedsStatements.statements_succ {n : Nat} (h : ProceedsStatements o n) (header : Option Span)
    (hheader : ∀ s ∈ header, o.Holds s) (ho : o.Reaches c) (hn : 2 * c.rest.length + 2 ≤ n + 1) :
    Proceeds o c (BodyTo o c header) (Cursor.statements (n + 1) header c) := by
  have hskip := c.reaches_skipSeparators
  have hle := hskip.length_le
  simp only [Cursor.statements]
  generalize c.skipSeparators = d at hskip hle ⊢
  split
  · cases header with
    | some s => exact proceeds_error (by simp) (hheader s rfl)
    | none => exact proceeds_ok hskip ⟨.nil hskip, by simp, by simp⟩
  split
  · next hword =>
    have htaken := advances_atWord (by decide) hword
    have hend := hskip.advances htaken
    cases header with
    | some s => exact proceeds_ok hend.reaches ⟨.nil hend.reaches, by simp, fun _ => hend⟩
    | none => exact proceeds_failTo (by simp) (ho.trans hskip) htaken.reaches
  · refine Proceeds.since ?_ hskip
    refine Proceeds.bind (h.statement d (ho.trans hskip) (by omega)) ?_
    intro first e hde hone
    obtain ⟨b, hadvances, hbe, hspan, hfirst⟩ := hone
    have hlt := (hadvances.trans hbe).length_lt
    refine Proceeds.bind (h.statements header e hheader (ho.trans (hskip.trans hde)) (by omega)) ?_
    intro more f hef hrest
    obtain ⟨halong, hmore, _⟩ := hrest
    refine proceeds_ok (.refl f) ⟨?_, List.forall_mem_cons.2 ⟨hfirst, hmore⟩, ?_⟩
    · rw [List.map_cons, hspan]
      exact .cons hskip hadvances (halong.since hbe)
    · intro _
      exact hskip.advances (hadvances.trans (hbe.trans hef))

theorem proceedsStatements (o : Cursor) (n : Nat) : ProceedsStatements o n := by
  induction n with
  | zero => exact ⟨fun _ _ h => absurd h (by simp), fun _ _ _ _ h => absurd h (by simp)⟩
  | succ n ih =>
    refine ⟨?_, ?_⟩
    · intro c ho hn
      exact ih.statement_succ ho hn
    · intro header c hheader ho hn
      exact ih.statements_succ header hheader ho hn

/-- A whole text is read to its end in order, or up to an error at a place of it. -/
theorem proceeds_ofText (file : FileId) (text : String) :
    Proceeds (ofText file text) (ofText file text) (BodyTo (ofText file text) (ofText file text) none)
      ((ofText file text).statements (2 * text.toList.length + 2) none) :=
  (proceedsStatements _ _).statements none _ nofun (.refl _) (Nat.le_refl _)

end Cursor

/-- The statements of a text stand in order, with everything in them; a
syntax error is at a place of the text. -/
theorem shaped_parse (file : FileId) (text : String) :
    Shaped (.ofText file text) (fun ss =>
      (ss.map Statement.span).Pairwise (·.stop.offset ≤ ·.start.offset) ∧
      ∀ t ∈ Statement.treeAll ss, t.Placed (.ofText file text)) (parse file text) := by
  have hread := Cursor.proceeds_ofText file text
  have hparse :
    parse file text =
    ((Cursor.ofText file text).statements (2 * text.toList.length + 2) none).map (·.1) := rfl
  rw [hparse]
  cases hresult : (Cursor.ofText file text).statements (2 * text.toList.length + 2) none with
  | error e =>
    obtain ⟨hcause, hspan⟩ := hread.2 e hresult
    exact shaped_error hcause hspan
  | ok p =>
    have hbody := (hread.1 p.1 p.2 hresult).2
    refine shaped_ok ⟨hbody.along.nests.ordered, ?_⟩
    rw [Statement.treeAll_eq, List.forall_mem_flatMap]
    exact hbody.sound

end Worldbook
