import Worldbook.Proofs.Rereading
import Worldbook.Written.Node

/-!
# Written lines read as their pieces

A line is words with single blanks between them. Each word is read as the pieces that its cues ask
for, and a line as the pieces of its words.
-/

namespace Worldbook

/-! ## Words -/

abbrev Cue := Piece → Prop

def Cue.value (P : Value → Prop) : Cue
  | .value v => P v
  | .op .. => False

def Cue.op (operator : Operator) : Cue
  | .op found _ => found = operator
  | .value _ => False

/-- The characters that may follow a word of a line. -/
def EndsPiece (tail : List Char) : Prop := ∃ rest, tail = ' ' :: rest ∨ tail = '\n' :: rest

theorem EndsPiece.closed {tail : List Char} (h : EndsPiece tail) : Closed tail := by
  obtain ⟨rest, rfl | rfl⟩ := h <;> intro ch hch <;> cases hch <;> decide

theorem endsWord_of_closed {tail : List Char} (h : Closed tail) : endsWord tail = true := by
  cases tail with
  | nil => rfl
  | cons c rest =>
    have hn := isNameChar_of_isCloser (h c rfl)
    have hj := isJoiner_of_isCloser (h c rfl)
    cases rest <;> simp [endsWord, hn, hj]

def Cursor.Line.after (pieces : List Piece) (r : Cursor.Line × Cursor) : Cursor.Line × Cursor :=
  ({ r.1 with pieces := pieces ++ r.1.pieces }, r.2)

/-- A word is read as pieces that fit the cues, and then the line goes on behind it. -/
structure Spelled (w : String) (cues : List Cue) : Prop where
  head : ∃ ch cs, w.toList = ch :: cs ∧ Cursor.isInlineBlank ch = false
  short : cues.length ≤ w.toList.length
  read : ∀ (c : Cursor) (pre tail : List Char), (∀ ch ∈ pre, Cursor.isInlineBlank ch = true) →
    c.rest = pre ++ (w.toList ++ tail) → EndsPiece tail →
    ∃ (ps : List Piece) (d : Cursor), List.Forall₂ (fun cue p => cue p) cues ps ∧ d.rest = tail ∧
    ∀ fuel stop, ∃ stop',
      c.linePieces (fuel + cues.length) stop = (d.linePieces fuel stop').map (Cursor.Line.after ps)

namespace Cursor

theorem skipInlineBlanks_eq {c : Cursor} {pre : List Char} (hpre : ∀ ch ∈ pre, isInlineBlank ch = true)
    {ch : Char} {cs : List Char} (h : c.rest = pre ++ ch :: cs) (hch : isInlineBlank ch = false) :
    c.skipInlineBlanks = c.past pre := by
  rw [skipInlineBlanks, h, takeWhile_append_stop hpre (fun x hx => by cases hx; exact hch)]

theorem linePieces_piece {c d e : Cursor} {piece : Piece} (hskip : c.skipInlineBlanks = d)
    (hdo : d.atWord "do" = false) (hend : d.atLineEnd = false) (hscan : d.scanPiece = .ok (piece, e))
    (fuel : Nat) (stop : Position) :
    c.linePieces (fuel + 1) stop = (e.linePieces fuel e.pos).map (Line.after [piece]) := by
  rw [linePieces, hskip]
  simp only [hdo, hend, Bool.false_eq_true, if_false, hscan, bind, Except.bind]
  cases e.linePieces fuel e.pos <;> rfl

theorem isInlineBlank_of_isHead {ch : Char} (h : isHead ch = true) : isInlineBlank ch = false := by
  have := isBlank_of_isHead h
  simp only [isBlank, Bool.or_eq_false_iff] at this
  exact this.1.1

theorem atLineEnd_of_head {c : Cursor} {ch : Char} {cs : List Char} (h : c.rest = ch :: cs)
    (hch : isHead ch = true) (hend : c.atWord "end" = false) : c.atLineEnd = false := by
  have h1 : ch ≠ '#' := isHead_ne hch (by decide)
  have h2 : ch ≠ '/' := isHead_ne hch (by decide)
  have hcomment : c.atComment = false := by
    simp [atComment, startsWith, h, List.isPrefixOf, Ne.symm h1, Ne.symm h2]
  rw [atLineEnd, h]
  simp [hcomment, hend, isHead_ne hch (d := '\n') (by decide), isHead_ne hch (d := '\r') (by decide),
    isHead_ne hch (d := ';') (by decide)]

end Cursor

namespace Cursor

theorem linePieces_value {w : List Char} {P : Value → Prop} (h : Reads w P) {c : Cursor}
    {pre tail : List Char} (hpre : ∀ ch ∈ pre, isInlineBlank ch = true)
    (hc : c.rest = pre ++ (w ++ tail)) (ht : Closed tail) :
    ∃ v, P v ∧ ∀ fuel stop, c.linePieces (fuel + 1) stop =
      (((c.past pre).past w).linePieces fuel ((c.past pre).past w).pos).map
        (Line.after [.value v]) := by
  obtain ⟨ch, cs, hcs, hhead⟩ := h.head
  have hd := past_rest hc
  have hsolid := h.solid _ _ hd ht
  obtain ⟨v, hv, hpv⟩ := h.value (c.past pre) tail (2 * (c.past pre).rest.length + 2) hd ht (le_refl _)
  have hrest : (c.past pre).rest = ch :: (cs ++ tail) := by rw [hd, hcs, List.cons_append]
  have hskip :=
    skipInlineBlanks_eq hpre (by rw [hc, hcs, List.cons_append]) (isInlineBlank_of_isHead hhead)
  have heq : (c.past pre).startsWith ['='] = false := by
    simp [startsWith, hrest, List.isPrefixOf, Ne.symm (isHead_ne hhead (d := '=') (by decide))]
  have hscan : (c.past pre).scanPiece = .ok (.value v, (c.past pre).past w) := by
    simp only [scanPiece, hsolid.operator, heq, Bool.false_eq_true, if_false, scanValue, hv,
      bind, Except.bind, pure, Except.pure]
  exact ⟨v, hpv,
    linePieces_piece hskip hsolid.notDo (atLineEnd_of_head hrest hhead hsolid.notEnd) hscan⟩

def isSign (ch : Char) : Bool := ['>', '<', '=', '+', '-', ','].contains ch

theorem isInlineBlank_of_isSign {ch : Char} (h : isSign ch = true) : isInlineBlank ch = false := by
  have : ∀ x ∈ ['>', '<', '=', '+', '-', ','], isInlineBlank x = false := by simp [isInlineBlank]
  exact this ch (by simpa [isSign] using h)

theorem linePieces_op {c : Cursor} {pre w tail : List Char} {o : Operator} {ch : Char} {cs : List Char}
    (hpre : ∀ ch ∈ pre, isInlineBlank ch = true) (hc : c.rest = pre ++ (w ++ tail)) (hw : w = ch :: cs)
    (hch : isSign ch = true) (ho : operator? (w ++ tail) = some (o, w)) :
    ∃ span, ∀ fuel stop, c.linePieces (fuel + 1) stop =
      (((c.past pre).past w).linePieces fuel ((c.past pre).past w).pos).map
        (Line.after [.op o span]) := by
  have hne : ∀ x, isSign x = false → ch ≠ x := by
    rintro x hx rfl
    rw [hch] at hx
    cases hx
  have hd := past_rest hc
  have hrest : (c.past pre).rest = ch :: (cs ++ tail) := by rw [hd, hw, List.cons_append]
  have hskip :=
    skipInlineBlanks_eq hpre (by rw [hc, hw, List.cons_append]) (isInlineBlank_of_isSign hch)
  have hdo : (c.past pre).atWord "do" = false :=
    atWord_of_head hrest (by rintro x ⟨⟩; exact hne 'd' (by decide)) (by decide)
  have hend : (c.past pre).atWord "end" = false :=
    atWord_of_head hrest (by rintro x ⟨⟩; exact hne 'e' (by decide)) (by decide)
  have hline : (c.past pre).atLineEnd = false := by
    rw [atLineEnd, hrest]
    simp [hend, atComment, startsWith, hrest, List.isPrefixOf, Ne.symm (hne '#' (by decide)),
      Ne.symm (hne '/' (by decide)), hne '\n' (by decide), hne '\r' (by decide), hne ';' (by decide)]
  have hscan : (c.past pre).scanPiece =
      .ok (.op o ((c.past pre).spanTo ((c.past pre).past w)), (c.past pre).past w) := by
    simp only [scanPiece, hd, ho, pure, Except.pure]
  exact ⟨_, linePieces_piece hskip hdo hline hscan⟩

end Cursor

theorem spelled_value {w : String} {P : Value → Prop} (h : Reads w.toList P) :
    Spelled w [.value P] := by
  obtain ⟨ch, cs, hcs, hhead⟩ := h.head
  refine ⟨⟨ch, cs, hcs, Cursor.isInlineBlank_of_isHead hhead⟩, by rw [hcs]; simp,
    fun c pre tail hpre hc ht => ?_⟩
  obtain ⟨v, hpv, hrun⟩ := Cursor.linePieces_value h hpre hc ht.closed
  exact ⟨[.value v], _, .cons hpv .nil, Cursor.past_rest (Cursor.past_rest hc), fun fuel stop =>
    ⟨_, hrun fuel stop⟩⟩

theorem spelled_op {w : String} {o : Operator} {ch : Char} {cs : List Char} (hw : w.toList = ch :: cs)
    (hch : Cursor.isSign ch = true)
    (ho : ∀ tail, EndsPiece tail → Cursor.operator? (w.toList ++ tail) = some (o, w.toList)) :
    Spelled w [.op o] := by
  refine ⟨⟨ch, cs, hw, Cursor.isInlineBlank_of_isSign hch⟩, by rw [hw]; simp,
    fun c pre tail hpre hc ht => ?_⟩
  obtain ⟨span, hrun⟩ := Cursor.linePieces_op hpre hc hw hch (ho tail ht)
  exact ⟨[.op o span], _, .cons rfl .nil, Cursor.past_rest (Cursor.past_rest hc), fun fuel stop =>
    ⟨_, hrun fuel stop⟩⟩

theorem spelled_comma {w : String} {P : Value → Prop} (h : Reads w.toList P) :
    Spelled (w ++ ",") [.value P, .op .comma] := by
  obtain ⟨ch, cs, hcs, hhead⟩ := h.head
  have htext : (w ++ ",").toList = w.toList ++ [','] := by simp
  refine ⟨⟨ch, cs ++ [','], by rw [htext, hcs]; rfl,
    Cursor.isInlineBlank_of_isHead hhead⟩, by rw [htext, hcs]; simp, fun c pre tail hpre hc ht => ?_⟩
  rw [htext, List.append_assoc] at hc
  obtain ⟨v, hpv, hrun⟩ := Cursor.linePieces_value h hpre hc (fun x hx => by cases hx; decide)
  have he := Cursor.past_rest (Cursor.past_rest hc)
  have he' : ((c.past pre).past w.toList).rest = [] ++ ([','] ++ tail) := he
  obtain ⟨span, hop⟩ := Cursor.linePieces_op (by simp) he' rfl (by decide) rfl
  refine ⟨[.value v, .op .comma span], _, .cons hpv (.cons rfl .nil),
    Cursor.past_rest (Cursor.past_rest he'), fun fuel stop =>
      ⟨((((c.past pre).past w.toList).past []).past [',']).pos, ?_⟩⟩
  rw [show fuel + [Cue.value P, .op .comma].length = fuel + 1 + 1 from rfl, hrun, hop]
  generalize Cursor.linePieces fuel _ _ = r
  cases r <;> rfl

/-! ## Lines -/

inductive SpelledAll : List String → List Cue → Prop
  | nil : SpelledAll [] []
  | cons {w : String} {ws : List String} {cues more : List Cue} (head : Spelled w cues)
      (tail : SpelledAll ws more) : SpelledAll (w :: ws) (cues ++ more)

theorem SpelledAll.append {ws vs : List String} {cues more : List Cue} (h : SpelledAll ws cues)
    (h' : SpelledAll vs more) : SpelledAll (ws ++ vs) (cues ++ more) := by
  induction h with
  | nil => exact h'
  | cons hw _ ih => rw [List.cons_append, List.append_assoc]; exact .cons hw ih

def spaced (words : List String) : List Char := (String.intercalate " " words).toList

@[simp] theorem spaced_nil : spaced [] = [] := by simp [spaced]

@[simp] theorem spaced_singleton (w : String) : spaced [w] = w.toList := by simp [spaced]

theorem spaced_cons (w v : String) (ws : List String) :
    spaced (w :: v :: ws) = w.toList ++ ' ' :: spaced (v :: ws) := by
  simp [spaced, String.intercalate_cons_cons]

theorem SpelledAll.length_le {ws : List String} {cues : List Cue} (h : SpelledAll ws cues) :
    cues.length ≤ (spaced ws).length := by
  induction h with
  | nil => simp
  | @cons w ws cues more hw h ih =>
    have := hw.short
    cases h with
    | nil => simpa using this
    | cons hv ht =>
      rw [spaced_cons]
      simp only [List.length_append, List.length_cons] at ih ⊢
      omega

namespace Cursor

theorem linePieces_spaced {ws : List String} {cues : List Cue} (h : SpelledAll ws cues)
    (hne : ws ≠ []) : ∀ (c : Cursor) (pre tail : List Char), (∀ ch ∈ pre, isInlineBlank ch = true) →
    c.rest = pre ++ (spaced ws ++ tail) → EndsPiece tail →
    ∃ (ps : List Piece) (d : Cursor), List.Forall₂ (fun cue p => cue p) cues ps ∧ d.rest = tail ∧
      ∀ fuel stop, ∃ stop',
        c.linePieces (fuel + cues.length) stop = (d.linePieces fuel stop').map (Line.after ps) := by
  induction h with
  | nil => exact absurd rfl hne
  | @cons w ws cues more hw h ih =>
    intro c pre tail hpre hc ht
    cases h with
    | nil =>
      rw [spaced_singleton] at hc
      rw [List.append_nil]
      exact hw.read c pre tail hpre hc ht
    | @cons v vs cues' more' hv hvs =>
      rw [spaced_cons, List.append_assoc, List.cons_append] at hc
      obtain ⟨ps, d, hps, hd, hrun⟩ := hw.read c pre _ hpre hc ⟨_, .inl rfl⟩
      obtain ⟨qs, e, hqs, he, hrun'⟩ := ih (by simp) d [' '] tail (List.all_eq_true.1 (by decide)) hd ht
      refine ⟨ps ++ qs, e, List.rel_append hps hqs, he, fun fuel stop => ?_⟩
      obtain ⟨mid, hmid⟩ := hrun (fuel + (cues' ++ more').length) stop
      obtain ⟨last, hlast⟩ := hrun' fuel mid
      refine ⟨last, ?_⟩
      rw [List.length_append, Nat.add_comm cues.length, ← Nat.add_assoc, hmid, hlast]
      generalize e.linePieces fuel last = r
      cases r with
      | error e => rfl
      | ok r => simp [Except.map, Line.after]

theorem scanLine_line {ws : List String} {cues : List Cue} (h : SpelledAll ws cues)
    (hne : ws ≠ []) {c : Cursor} {tail : List Char} (hc : c.rest = spaced ws ++ '\n' :: tail) :
    ∃ ps stop d, List.Forall₂ (fun cue p => cue p) cues ps ∧ c.scanLine = .ok (⟨ps, false, stop⟩, d) ∧
      d.rest = '\n' :: tail := by
  obtain ⟨ps, d, hps, hd, hrun⟩ := linePieces_spaced h hne c [] _ (by simp) hc ⟨_, .inr rfl⟩
  have hlen := congrArg List.length hc
  rw [List.length_append, List.length_cons] at hlen
  have hle := h.length_le
  obtain ⟨stop, hstop⟩ := hrun (c.rest.length + 1 - cues.length) c.pos
  have hskip : d.skipInlineBlanks = d := by
    rw [skipInlineBlanks, hd]
    exact past_nil d
  have hlast : ∀ fuel, d.linePieces (fuel + 1) stop = .ok (⟨[], false, stop⟩, d) := by
    intro fuel
    have hdo : d.atWord "do" = false := atWord_of_head hd (by rintro x ⟨⟩; decide) (by decide)
    have hend : d.atLineEnd = true := by rw [atLineEnd, hd]; rfl
    simp only [linePieces, hskip, hdo, hend, Bool.false_eq_true, if_false, if_true]
  refine ⟨ps, stop, d, hps, ?_, hd⟩
  rw [Nat.sub_add_cancel (by omega)] at hstop
  rw [scanLine, hstop, show c.rest.length + 1 - cues.length = c.rest.length - cues.length + 1 by omega,
    hlast]
  simp [Except.map, Line.after]

theorem scanLine_block {ws : List String} {cues : List Cue} (h : SpelledAll ws cues)
    (hne : ws ≠ []) {c : Cursor} {tail : List Char} (ht : EndsPiece tail)
    (hc : c.rest = spaced ws ++ (" do".toList ++ tail)) :
    ∃ ps stop d, List.Forall₂ (fun cue p => cue p) cues ps ∧ c.scanLine = .ok (⟨ps, true, stop⟩, d) ∧
      d.rest = tail := by
  obtain ⟨ps, d, hps, hd, hrun⟩ := linePieces_spaced h hne c [] _ (by simp) hc ⟨_, .inl rfl⟩
  have hlen := congrArg List.length hc
  rw [List.length_append, List.length_append] at hlen
  have hle := h.length_le
  obtain ⟨stop, hstop⟩ := hrun (c.rest.length + 1 - cues.length) c.pos
  have hskip : d.skipInlineBlanks = d.past [' '] := by
    rw [skipInlineBlanks, hd]
    rfl
  have hdo : (d.past [' ']).rest = "do".toList ++ tail := past_rest (a := [' ']) hd
  have hat : (d.past [' ']).atWord "do" = true := by
    rw [atWord, Bool.and_eq_true, startsWith_iff]
    refine ⟨⟨_, hdo⟩, ?_⟩
    rw [hdo]
    exact endsWord_of_closed ht.closed
  have hlast : ∀ fuel, d.linePieces (fuel + 1) stop =
      .ok (⟨[], true, stop⟩, (d.past [' ']).past "do".toList) := by
    intro fuel
    simp only [linePieces, hskip, hat, if_true]
  refine ⟨ps, stop, _, hps, ?_, past_rest hdo⟩
  rw [Nat.sub_add_cancel (by omega)] at hstop
  rw [scanLine, hstop, show c.rest.length + 1 - cues.length = c.rest.length - cues.length + 1 by omega,
    hlast]
  simp [Except.map, Line.after]

end Cursor

end Worldbook
