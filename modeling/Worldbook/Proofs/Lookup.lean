import Worldbook.Proofs.Places

/-!
# Places by their offset

A text can be addressed by byte offsets alone: it is cut there, and the line of an
offset is looked up in a table of the offsets where lines start. Each of these can go
wrong, by a cut inside a character or behind the end, or by an offset in front of every
line. For the places of a reader none does, and what they give is what its cursor holds.
-/

namespace Worldbook

def byteSize (cs : List Char) : Nat := (cs.map Char.utf8Size).sum

@[simp] theorem byteSize_nil : byteSize [] = 0 := rfl

@[simp] theorem byteSize_cons (c : Char) (cs : List Char) :
    byteSize (c :: cs) = c.utf8Size + byteSize cs := rfl

@[simp] theorem byteSize_append (cs ds : List Char) :
    byteSize (cs ++ ds) = byteSize cs + byteSize ds := by
  simp [byteSize]

/-! ## Cuts -/

/-- The characters before and after a number of bytes, if these end between two characters. -/
def cut? : List Char → Nat → Option (List Char × List Char)
  | cs, 0 => some ([], cs)
  | [], _ + 1 => none
  | c :: cs, n + 1 =>
    if c.utf8Size ≤ n + 1 then (cut? cs (n + 1 - c.utf8Size)).map fun (before, after) =>
    (c :: before, after) else none

def slice? (cs : List Char) (start stop : Nat) : Option (List Char) :=
  if start ≤ stop then do
    let (_, rest) ← cut? cs start
    let (taken, _) ← cut? rest (stop - start)
    return taken
  else none

theorem cut?_append (before after : List Char) :
    cut? (before ++ after) (byteSize before) = some (before, after) := by
  induction before with
  | nil => rw [List.nil_append, byteSize_nil, cut?]
  | cons c before ih =>
    obtain ⟨n, hn⟩ : ∃ n, byteSize (c :: before) = n + 1 := by
      have hsize := c.utf8Size_pos
      exact ⟨c.utf8Size - 1 + byteSize before, by rw [byteSize_cons]; omega⟩
    have hle : c.utf8Size ≤ n + 1 := by rw [← hn, byteSize_cons]; omega
    have hrest : n + 1 - c.utf8Size = byteSize before := by rw [← hn, byteSize_cons]; omega
    rw [hn, List.cons_append, cut?, if_pos hle, hrest, ih]
    rfl

theorem slice?_append (before taken after : List Char) :
    slice? (before ++ (taken ++ after)) (byteSize before) (byteSize before + byteSize taken) =
      some taken := by
  have hsize : byteSize before + byteSize taken - byteSize before = byteSize taken := by omega
  rw [slice?, if_pos (Nat.le_add_right ..), cut?_append, Option.bind_eq_bind, Option.bind_some]
  dsimp only
  rw [hsize, cut?_append]
  rfl

/-! ## The table of lines -/

/-- The offsets behind the line ends of a text that starts at an offset. -/
def startsFrom (offset : Nat) : List Char → List Nat
  | [] => []
  | c :: cs =>
    if c = '\n' then (offset + 1) :: startsFrom (offset + 1) cs else startsFrom (offset + c.utf8Size) cs

def lineStarts (cs : List Char) : List Nat := 0 :: startsFrom 0 cs

theorem startsFrom_append (offset : Nat) (cs ds : List Char) :
    startsFrom offset (cs ++ ds) = startsFrom offset cs ++ startsFrom (offset + byteSize cs) ds := by
  induction cs generalizing offset with
  | nil => rfl
  | cons c cs ih =>
    rw [List.cons_append, startsFrom, startsFrom, byteSize_cons, ← Nat.add_assoc]
    by_cases hc : c = '\n'
    · rw [if_pos hc, if_pos hc, ih, hc]
      rfl
    · rw [if_neg hc, if_neg hc, ih]

/-- Each line starts behind the offset, within the text, and behind the one before it. -/
theorem startsFrom_bounds (offset : Nat) (cs : List Char) :
    (∀ i ∈ startsFrom offset cs, offset < i ∧ i ≤ offset + byteSize cs) ∧
    (startsFrom offset cs).Pairwise (· < ·) := by
  induction cs generalizing offset with
  | nil => exact ⟨nofun, .nil⟩
  | cons c cs ih =>
    rw [startsFrom, byteSize_cons]
    by_cases hc : c = '\n'
    · rw [if_pos hc, hc]
      have hrest := ih (offset + 1)
      have hsize : Char.utf8Size '\n' = 1 := by decide
      rw [hsize]
      refine ⟨List.forall_mem_cons.2 ⟨⟨by omega, by omega⟩, ?_⟩, List.pairwise_cons.2 ⟨?_, hrest.2⟩⟩
      · intro i hi
        have hi := hrest.1 i hi
        omega
      · intro i hi
        exact (hrest.1 i hi).1
    · rw [if_neg hc]
      have hrest := ih (offset + c.utf8Size)
      have hsize := c.utf8Size_pos
      refine ⟨?_, hrest.2⟩
      intro i hi
      have hi := hrest.1 i hi
      omega

theorem lineStarts_pairwise (cs : List Char) : (lineStarts cs).Pairwise (· < ·) := by
  have hstarts := startsFrom_bounds 0 cs
  refine List.pairwise_cons.2 ⟨?_, hstarts.2⟩
  intro i hi
  exact (hstarts.1 i hi).1

def search (starts : List Nat) (offset : Nat) : Except Nat Nat :=
  if offset ∈ starts then .ok (starts.idxOf offset) else .error (starts.countP (· < offset))

def line? (starts : List Nat) (offset : Nat) : Option Nat :=
  match search starts offset with
  | .ok i => some i
  | .error 0 => none
  | .error (i + 1) => some i

theorem idxOf_eq_countP {starts : List Nat} (h : starts.Pairwise (· < ·)) {offset : Nat}
    (hmem : offset ∈ starts) : starts.idxOf offset = starts.countP (· < offset) := by
  induction starts with
  | nil => cases hmem
  | cons s starts ih =>
    rw [List.pairwise_cons] at h
    by_cases hs : s = offset
    · have hnone : starts.countP (· < offset) = 0 := by
        rw [List.countP_eq_zero]
        intro i hi
        have hi := h.1 i hi
        simp
        omega
      rw [hs, List.idxOf_cons_self, List.countP_cons_of_neg (by simp), hnone]
    · have hmem : offset ∈ starts := by
        cases hmem with
        | head => exact absurd rfl hs
        | tail _ hmem => exact hmem
      have hlt := h.1 offset hmem
      rw [List.idxOf_cons_ne _ hs, List.countP_cons_of_pos (by simpa using hlt), ih h.2 hmem]

/-- The line of an offset is the last one that starts at or in front of it. -/
theorem line?_append {early late : List Nat} {start offset : Nat}
    (hsorted : (early ++ start :: late).Pairwise (· < ·)) (hstart : start ≤ offset)
    (hlate : ∀ i ∈ late, offset < i) : line? (early ++ start :: late) offset = some early.length := by
  have hearly : ∀ i ∈ early, i < offset := by
    intro i hi
    have hi := (List.pairwise_append.1 hsorted).2.2 i hi start List.mem_cons_self
    omega
  have hcount : early.countP (· < offset) = early.length := by
    rw [List.countP_eq_length]
    simpa using hearly
  have hrest : late.countP (· < offset) = 0 := by
    rw [List.countP_eq_zero]
    intro i hi
    have hi := hlate i hi
    simp
    omega
  by_cases heq : start = offset
  · have hmem : offset ∈ early ++ start :: late := by simp [heq]
    have hcountP : (early ++ start :: late).countP (· < offset) = early.length := by
      rw [List.countP_append, hcount, List.countP_cons_of_neg (by simp [heq]), hrest]
      rfl
    rw [line?, search, if_pos hmem, idxOf_eq_countP hsorted hmem, hcountP]
  · have hlt : start < offset := by omega
    have hmem : offset ∉ early ++ start :: late := by
      rw [List.mem_append, List.mem_cons]
      rintro (hi | hi | hi)
      · exact Nat.lt_irrefl _ (hearly _ hi)
      · exact heq hi.symm
      · exact Nat.lt_irrefl _ (hlate _ hi)
    have hcountP : (early ++ start :: late).countP (· < offset) = early.length + 1 := by
      rw [List.countP_append, hcount, List.countP_cons_of_pos (by simpa using hlt), hrest]
    rw [line?, search, if_neg hmem, hcountP]

/-- The position of an offset: its line is looked up, and the column counts
the characters from where that line starts. -/
def position? (cs : List Char) (offset : Nat) : Option Position := do
  let line ← line? (lineStarts cs) offset
  let start ← (lineStarts cs)[line]?
  let front ← slice? cs start offset
  return ⟨line, front.length, offset⟩

/-- A text ends in a line of its own, which starts at the last entry of the table. -/
theorem exists_lastLine (cs : List Char) :
    ∃ lines last early, cs = lines ++ last ∧ lineStarts cs = early ++ [byteSize lines] ∧
      early.length = (Position.origin.after cs).line ∧
      last.length = (Position.origin.after cs).column := by
  induction cs using List.reverseRecOn with
  | nil => exact ⟨[], [], [], rfl, rfl, rfl, rfl⟩
  | append_singleton cs c ih =>
    obtain ⟨lines, last, early, heq, hearly, hline, hcolumn⟩ := ih
    have htable : lineStarts (cs ++ [c]) = lineStarts cs ++ startsFrom (byteSize cs) [c] := by
      rw [lineStarts, startsFrom_append, Nat.zero_add, lineStarts, List.cons_append]
    rw [Position.after_append, Position.after_cons, Position.after_nil, Position.advance, htable]
    by_cases hc : c = '\n'
    · have hsize : Char.utf8Size '\n' = 1 := by decide
      refine ⟨cs ++ [c], [], lineStarts cs, (List.append_nil _).symm, ?_, ?_, ?_⟩
      · simp [startsFrom, hc, hsize]
      · rw [if_pos hc, hearly, List.length_append, List.length_singleton, hline]
      · rw [if_pos hc]
        rfl
    · refine ⟨lines, last ++ [c], early, by rw [heq, List.append_assoc], ?_, ?_, ?_⟩
      · rw [hearly, startsFrom, if_neg hc, startsFrom, List.append_nil]
      · rw [if_neg hc, hline]
      · rw [if_neg hc, List.length_append, List.length_singleton, hcolumn]

theorem position?_append (before after : List Char) :
    position? (before ++ after) (byteSize before) = some (Position.origin.after before) := by
  obtain ⟨lines, last, early, heq, hearly, hline, hcolumn⟩ := exists_lastLine before
  have htable : lineStarts (before ++ after) = early ++ byteSize lines ::
    startsFrom (byteSize before) after := by
    rw [lineStarts, startsFrom_append, Nat.zero_add, ← List.cons_append, ← lineStarts, hearly,
      List.append_assoc, List.singleton_append]
  have hsorted : (early ++ byteSize lines :: startsFrom (byteSize before) after).Pairwise (· < ·) :=
    htable ▸ lineStarts_pairwise (before ++ after)
  have hstart : byteSize lines ≤ byteSize before := by rw [heq, byteSize_append]; omega
  have hlookup := line?_append hsorted hstart fun i hi => ((startsFrom_bounds _ _).1 i hi).1
  have hentry : (early ++ byteSize lines :: startsFrom (byteSize before) after)[early.length]? =
    some (byteSize lines) := by
    rw [List.getElem?_append_right (Nat.le_refl _), Nat.sub_self]
    rfl
  have hfront : slice? (before ++ after) (byteSize lines) (byteSize before) = some last := by
    rw [heq, List.append_assoc, byteSize_append]
    exact slice?_append lines last after
  have hoffset : byteSize before = (Position.origin.after before).offset := by
    rw [Position.offset_after, Position.origin, Nat.zero_add]
    rfl
  simp only [position?, htable, hlookup, hentry, hfront, Option.bind_eq_bind, Option.bind_some]
  rw [hline, hcolumn, hoffset]
  rfl

/-! ## Cursors -/

namespace Cursor

variable {c d : Cursor}

/-- The text can be cut at the cursor and at every place that comes after it,
and the table of lines finds the cursor. -/
structure Sited (text : String) (c : Cursor) : Prop where
  rest : slice? text.toList c.pos.offset text.utf8ByteSize = some c.rest
  taken : ∀ d, c.Reaches d → slice? text.toList c.pos.offset d.pos.offset = some (c.textTo d).toList
  word : ∀ word : String, c.startsWith word.toList = true →
    cut? c.rest word.utf8ByteSize = some (word.toList, c.rest.drop word.length)
  position : position? text.toList c.pos.offset = some c.pos

theorem sited_of_reaches {file : FileId} {text : String} (h : (ofText file text).Reaches c) :
    c.Sited text := by
  obtain ⟨before, ⟨after, htext⟩, rfl⟩ := h
  replace htext : before ++ after = text.toList := htext
  have hrest : ((ofText file text).past before).rest = after := past_rest htext.symm
  have hpos : ((ofText file text).past before).pos = Position.origin.after before := rfl
  have hoffset : ∀ cs, (Position.origin.after cs).offset = byteSize cs := by
    intro cs
    rw [Position.offset_after, Position.origin, Nat.zero_add]
    rfl
  have hsize : ∀ s : String, s.utf8ByteSize = byteSize s.toList := by
    intro s
    rw [byteSize, ← Position.size_ofList, String.ofList_toList]
  refine ⟨?_, ?_, ?_, ?_⟩
  · rw [hrest, hpos, hoffset, hsize, ← htext, byteSize_append]
    simpa using slice?_append before after []
  · intro d h
    obtain ⟨cs, ⟨more, hmore⟩, hd⟩ := h
    rw [hrest] at hmore
    have htaken : ((ofText file text).past before).textTo d = String.ofList cs := by
      rw [hd, textTo, past_rest (hrest.trans hmore.symm), hrest, ← hmore, List.length_append,
        Nat.add_sub_cancel, List.take_left]
    have hstop : d.pos = Position.origin.after (before ++ cs) := by
      rw [hd, past, hpos, Position.after_append]
    rw [htaken, String.toList_ofList, hstop, hpos, hoffset, hoffset, byteSize_append, ← htext, ← hmore]
    exact slice?_append before cs more
  · intro word hword
    obtain ⟨more, hmore⟩ := List.isPrefixOf_iff_prefix.1 hword
    rw [← hmore, hsize, cut?_append, ← String.length_toList, List.drop_left]
  · rw [hpos, hoffset, ← htext]
    exact position?_append before after

end Cursor

end Worldbook
