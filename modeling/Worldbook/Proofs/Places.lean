import Mathlib.Data.List.Basic
import Worldbook.Proofs.Concatenation

/-!
# Places in a text

A reader that starts at the front of a text and only goes forward stands where its position says:
the offset counts the bytes before it, the line the line ends before it, and the column the
characters since the last of them.
-/

namespace Worldbook

/-! ## Positions -/

/-- The text can be cut at the position, which counts the bytes, the lines
and the characters of the last line in front of the cut. -/
def Position.Exact (text : String) (p : Position) : Prop :=
  ∃ before after, text = before ++ after ∧ p.offset = before.utf8ByteSize ∧
    p.line = before.toList.count '\n' ∧
    p.column = (before.toList.reverse.takeWhile (· ≠ '\n')).length

/-- Both ends are exact positions of the file, in order and within its text. -/
structure Span.Exact (file : FileId) (text : String) (s : Span) : Prop where
  file : s.file = file
  start : s.start.Exact text
  stop : s.stop.Exact text
  ordered : s.start.offset ≤ s.stop.offset
  bounded : s.stop.offset ≤ text.utf8ByteSize

namespace Position

theorem size_ofList (cs : List Char) :
    (String.ofList cs).utf8ByteSize = (cs.map Char.utf8Size).sum := by
  induction cs with
  | nil => rfl
  | cons c cs ih =>
    have hcons : String.ofList (c :: cs) = String.singleton c ++ String.ofList cs := by
      rw [← String.toList_inj]
      simp
    rw [hcons, String.utf8ByteSize_append, String.utf8ByteSize_singleton, ih, List.map_cons,
      List.sum_cons]

theorem column_after (cs : List Char) :
    (origin.after cs).column = (cs.reverse.takeWhile (· ≠ '\n')).length := by
  induction cs using List.reverseRecOn with
  | nil => rfl
  | append_singleton cs c ih =>
    rw [after_append, List.reverse_append, List.reverse_singleton, List.singleton_append,
      List.takeWhile_cons]
    by_cases hc : c = '\n'
    · simp [hc, advance]
    · simp [hc, advance, ih]

theorem exact_iff {text : String} {p : Position} :
    p.Exact text ↔ ∃ before, before <+: text.toList ∧ p = origin.after before := by
  unfold Exact
  constructor
  · intro h
    obtain ⟨before, after, htext, hoffset, hline, hcolumn⟩ := h
    refine ⟨before.toList, ⟨after.toList, by rw [htext, String.toList_append]⟩, ?_⟩
    have hsize := size_ofList before.toList
    rw [String.ofList_toList] at hsize
    have hafter : p = ⟨p.line, p.column, p.offset⟩ := rfl
    rw [hafter, hline, hcolumn, hoffset, hsize, ← column_after]
    have hl := line_after origin before.toList
    have ho := offset_after origin before.toList
    simp only [origin, Nat.zero_add] at hl ho
    rw [← hl, ← ho]
    rfl
  · intro h
    obtain ⟨before, ⟨after, htext⟩, hp⟩ := h
    refine ⟨String.ofList before, String.ofList after, ?_, ?_, ?_, ?_⟩
    · rw [← String.ofList_append, htext, String.ofList_toList]
    · rw [hp, offset_after, size_ofList, origin, Nat.zero_add]
    · rw [hp, line_after, String.toList_ofList, origin, Nat.zero_add]
    · rw [hp, column_after, String.toList_ofList]

theorem Exact.le_size {text : String} {p : Position} (h : p.Exact text) :
    p.offset ≤ text.utf8ByteSize := by
  obtain ⟨before, after, htext, hoffset, -⟩ := h
  rw [htext, String.utf8ByteSize_append, hoffset]
  omega

theorem advance_later (p : Position) (c : Char) :
    p.line < (p.advance c).line ∨ p.line = (p.advance c).line ∧ p.column < (p.advance c).column := by
  unfold advance
  by_cases hc : c = '\n'
  · simp [hc]
  · simp [hc]

/-- Some characters further on the position is on a later line, or on the
same line in a later column. -/
theorem after_later (p : Position) {cs : List Char} (h : cs ≠ []) :
    p.line < (p.after cs).line ∨ p.line = (p.after cs).line ∧ p.column < (p.after cs).column := by
  induction cs generalizing p with
  | nil => exact absurd rfl h
  | cons c cs ih =>
    have hstep := p.advance_later c
    rw [after_cons]
    by_cases hcs : cs = []
    · rw [hcs]
      exact hstep
    · have hrest := ih (p.advance c) hcs
      omega

theorem offset_le_after (p : Position) (cs : List Char) : p.offset ≤ (p.after cs).offset := by
  rw [offset_after]
  omega

theorem offset_lt_after (p : Position) {cs : List Char} (h : cs ≠ []) :
    p.offset < (p.after cs).offset := by
  cases cs with
  | nil => exact absurd rfl h
  | cons c cs =>
    have hsize := c.utf8Size_pos
    rw [offset_after, List.map_cons, List.sum_cons]
    omega

theorem precedes_eq {p q : Position} :
    p.precedes q = true ↔ p.line < q.line ∨ p.line = q.line ∧
      (p.column < q.column ∨ p.column = q.column ∧ p.offset ≤ q.offset) := by
  simp [precedes]

/-- In one text the order of positions is that of their offsets. -/
theorem precedes_iff {text : String} {p q : Position} (hp : p.Exact text) (hq : q.Exact text) :
    p.precedes q = true ↔ p.offset ≤ q.offset := by
  obtain ⟨a, ha, rfl⟩ := exact_iff.1 hp
  obtain ⟨b, hb, rfl⟩ := exact_iff.1 hq
  rw [precedes_eq]
  obtain ⟨cs, rfl⟩ | ⟨cs, rfl⟩ := List.prefix_or_prefix_of_prefix ha hb
  · rw [after_append]
    by_cases hcs : cs = []
    · simp [hcs]
    · have hlater := (origin.after a).after_later hcs
      have hoffset := (origin.after a).offset_lt_after hcs
      omega
  · rw [after_append]
    by_cases hcs : cs = []
    · simp [hcs]
    · have hlater := (origin.after b).after_later hcs
      have hoffset := (origin.after b).offset_lt_after hcs
      omega

end Position

namespace Span

variable {file : FileId} {text : String} {s t : Span}

/-- The least span over two exact spans is exact. -/
theorem Exact.join (hs : s.Exact file text) (ht : t.Exact file text) : (s.join t).Exact file text := by
  have hstart := Position.precedes_iff hs.start ht.start
  have hstop := Position.precedes_iff hs.stop ht.stop
  have hs' := hs.ordered
  have ht' := ht.ordered
  unfold Span.join Position.earlier Position.later
  by_cases hfirst : s.start.precedes t.start = true
  · by_cases hlast : s.stop.precedes t.stop = true
    · rw [if_pos hfirst, if_pos hlast]
      exact ⟨hs.file, hs.start, ht.stop, (hstart.1 hfirst).trans ht', ht.bounded⟩
    · rw [if_pos hfirst, if_neg hlast]
      exact ⟨hs.file, hs.start, hs.stop, hs', hs.bounded⟩
  · by_cases hlast : s.stop.precedes t.stop = true
    · rw [if_neg hfirst, if_pos hlast]
      exact ⟨hs.file, ht.start, ht.stop, ht', ht.bounded⟩
    · rw [if_neg hfirst, if_neg hlast]
      rw [hstart] at hfirst
      exact ⟨hs.file, ht.start, hs.stop, by show t.start.offset ≤ s.stop.offset; omega, hs.bounded⟩

end Span

/-! ## Cursors -/

namespace Cursor

variable {c d e : Cursor}

def Advances (c d : Cursor) : Prop := ∃ cs, cs ≠ [] ∧ cs <+: c.rest ∧ d = c.past cs

theorem Advances.reaches (h : c.Advances d) : c.Reaches d := by
  obtain ⟨cs, -, hcs, hd⟩ := h
  exact ⟨cs, hcs, hd⟩

theorem advances_past {cs : List Char} (hne : cs ≠ []) (h : cs <+: c.rest) : c.Advances (c.past cs) :=
  ⟨cs, hne, h, rfl⟩

theorem Reaches.length_le (h : c.Reaches d) : d.rest.length ≤ c.rest.length := by
  obtain ⟨cs, ⟨rest, hrest⟩, rfl⟩ := h
  rw [past_rest hrest.symm, ← hrest, List.length_append]
  omega

theorem Advances.length_lt (h : c.Advances d) : d.rest.length < c.rest.length := by
  obtain ⟨cs, hne, ⟨rest, hrest⟩, rfl⟩ := h
  have hpos := List.length_pos_iff.2 hne
  rw [past_rest hrest.symm, ← hrest, List.length_append]
  omega

theorem Advances.trans (h : c.Advances d) (hde : d.Reaches e) : c.Advances e := by
  obtain ⟨cs, hne, ⟨rest, hrest⟩, rfl⟩ := h
  obtain ⟨ds, ⟨more, hmore⟩, rfl⟩ := hde
  rw [past_rest hrest.symm] at hmore
  refine ⟨cs ++ ds, ?_, ⟨more, by rw [List.append_assoc, hmore, hrest]⟩, past_past ..⟩
  simp [hne]

theorem Reaches.advances (h : c.Reaches d) (hde : d.Advances e) : c.Advances e := by
  obtain ⟨cs, ⟨rest, hrest⟩, rfl⟩ := h
  obtain ⟨ds, hne, ⟨more, hmore⟩, rfl⟩ := hde
  rw [past_rest hrest.symm] at hmore
  refine ⟨cs ++ ds, ?_, ⟨more, by rw [List.append_assoc, hmore, hrest]⟩, past_past ..⟩
  simp [hne]

theorem Reaches.offset_le (h : c.Reaches d) : c.pos.offset ≤ d.pos.offset := by
  obtain ⟨cs, -, rfl⟩ := h
  exact c.pos.offset_le_after cs

/-- The span lies between two places that a reader from the cursor comes to, one after the other. -/
def Holds (o : Cursor) (s : Span) : Prop := ∃ a b : Cursor, o.Reaches a ∧ a.Reaches b ∧ s = a.spanTo b

theorem holds_spanTo (hc : c.Reaches d) (hd : d.Reaches e) : c.Holds (d.spanTo e) := ⟨d, e, hc, hd, rfl⟩

theorem holds_point (h : c.Reaches d) : c.Holds (.point d.file d.pos) := ⟨d, d, h, .refl d, rfl⟩

theorem exact_of_reaches {file : FileId} {text : String} (h : (ofText file text).Reaches c) :
    c.file = file ∧ c.pos.Exact text := by
  obtain ⟨cs, hcs, rfl⟩ := h
  exact ⟨rfl, Position.exact_iff.2 ⟨cs, hcs, rfl⟩⟩

theorem Holds.exact {file : FileId} {text : String} {s : Span} (h : (ofText file text).Holds s) :
    s.Exact file text := by
  obtain ⟨a, b, ha, hab, rfl⟩ := h
  have hstart := exact_of_reaches ha
  have hstop := exact_of_reaches (ha.trans hab)
  exact ⟨hstart.1, hstart.2, hstop.2, hab.offset_le, hstop.2.le_size⟩

end Cursor

end Worldbook
