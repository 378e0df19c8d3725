import Worldbook.Proofs.Words

/-!
# What is read where

Every value of a tree, at any depth, is read at a place of the text, and its word is what the
scanner of names reads there. The pieces of a line are read where no word of a block stands.
-/

namespace Worldbook

/-- The word in front of a value: a name, or what a call calls. -/
def Value.word? : Value → Option String
  | name text _ => some text
  | call callee _ _ => some callee
  | _ => none

def Value.string? : Value → Option String
  | str text _ => some text
  | _ => none

namespace Cursor

variable {o c d : Cursor} {n : Nat}

def HasName (o : Cursor) (p : Position) (name : String) : Prop :=
  ∃ a d : Cursor, o.Reaches a ∧ a.pos = p ∧ a.scanName = .ok (name, d)

def HasString (o : Cursor) (p : Position) (text : String) : Prop :=
  ∃ a d : Cursor, o.Reaches a ∧ a.pos = p ∧ a.startsWith ['"'] = true ∧ a.scanAnyString = .ok (text, d)

end Cursor

namespace Value

variable {o c d : Cursor} {v : Value} {n : Nat}

def Stands (o : Cursor) (v : Value) : Prop :=
  ∃ (a d : Cursor) (n : Nat), o.Reaches a ∧ a.value n = .ok (v, d)

theorem Stands.since (h : v.Stands c) (hoc : o.Reaches c) : v.Stands o := by
  obtain ⟨a, d, n, ha, hv⟩ := h
  exact ⟨a, d, n, hoc.trans ha, hv⟩

/-! ## Values in values -/

theorem sizeOf_lt_of_mem_parts {p v : Value} (h : p ∈ v.parts) : sizeOf p < sizeOf v := by
  cases v with
  | array items s =>
    have hlt : sizeOf p < sizeOf items := List.sizeOf_lt_of_mem h
    simp only [array.sizeOf_spec]
    omega
  | object members s =>
    obtain ⟨m, hm, rfl⟩ := List.mem_map.1 h
    have hlt := List.sizeOf_lt_of_mem hm
    obtain ⟨key, p⟩ := m
    simp only [object.sizeOf_spec, Prod.mk.sizeOf_spec] at hlt ⊢
    omega
  | call callee args s =>
    have hlt : sizeOf p < sizeOf args := List.sizeOf_lt_of_mem h
    simp only [call.sizeOf_spec]
    omega
  | _ => cases h

/-- What passes from a value to those directly in it holds of all in it. -/
theorem forall_mem_tree_of_parts {P : Value → Prop} (hparts : ∀ v, P v → ∀ p ∈ v.parts, P p) (v : Value)
    (hv : P v) : ∀ u ∈ v.tree, P u := by
  rw [forall_mem_tree]
  refine ⟨hv, ?_⟩
  intro p hp
  have hlt := sizeOf_lt_of_mem_parts hp
  exact forall_mem_tree_of_parts hparts p (hparts v hv p hp)
termination_by sizeOf v

end Value

/-! ## Loops -/

namespace Round

variable {α : Type}

/-- A round ends the list, or has read something with a property and goes on. -/
def Gives (P : Cursor → α → Prop) (c : Cursor) : Round α (List α) → Prop
  | done as _ => as = []
  | more a d => P c a ∧ c.Reaches d

/-- What a round gives is so of all that a loop has read. -/
theorem forall_mem (P : Cursor → α → Prop) (loop : Nat → Cursor → Except SyntaxError (List α × Cursor))
    (round : Nat → Cursor → Except SyntaxError (Round α (List α))) {n : Nat}
    (hsince : ∀ c d a, c.Reaches d → P d a → P c a) (hzero : ∀ c p, loop 0 c ≠ .ok p)
    (hsucc : ∀ k c, loop (k + 1) c = round k c >>= next List.cons (loop k))
    (hround : ∀ k < n, ∀ c r, round k c = .ok r → r.Gives P c) {c d : Cursor} {as : List α}
    (h : loop n c = .ok (as, d)) : ∀ a ∈ as, P c a := by
  induction n generalizing c as with
  | zero => exact absurd h (hzero c _)
  | succ n ih =>
    rw [hsucc] at h
    obtain ⟨r, hr, h⟩ := Cursor.bind_eq_ok h
    have hgives := hround n (Nat.lt_succ_self n) c r hr
    cases r with
    | done result rest =>
      cases h
      rw [show as = [] from hgives]
      simp
    | more first rest =>
      obtain ⟨⟨others, e⟩, hothers, heq⟩ := Cursor.bind_eq_ok h
      cases heq
      have hrest := ih (fun k hk => hround k (Nat.lt_succ_of_lt hk)) hothers
      refine List.forall_mem_cons.2 ⟨hgives.1, ?_⟩
      intro a ha
      exact hsince c rest a hgives.2 (hrest a ha)

end Round

/-! ## Values -/

namespace Cursor

variable {o c d : Cursor} {v : Value} {n : Nat}

theorem gives_itemRound {opening closing : Char} {start : Cursor} {r : Round Value (List Value)}
    (h : itemRound n opening closing start c = .ok r) : r.Gives (fun c v => v.Stands c) c := by
  obtain ⟨d, rfl⟩ | ⟨v, d, hvalue, rfl⟩ := cases_itemRound h
  · rfl
  · have hskip := c.reaches_skipBlanks
    exact ⟨⟨_, d, n, hskip, hvalue⟩, (advances_of_item hskip hvalue).reaches⟩

theorem gives_memberRound {start : Cursor} {r : Round (String × Value) (List (String × Value))}
    (h : memberRound n start c = .ok r) : r.Gives (fun c m => m.2.Stands c) c := by
  obtain ⟨d, rfl⟩ | ⟨key, v, d, e, hitem, hvalue, rfl⟩ := cases_memberRound h
  · rfl
  · exact ⟨⟨d, e, n, hitem, hvalue⟩, (advances_of_item hitem hvalue).reaches⟩

theorem stands_of_sequence {opening closing : Char} {start : Cursor} {vs : List Value}
    (h : sequence n opening closing start c = .ok (vs, d)) : ∀ v ∈ vs, v.Stands c := by
  refine Round.forall_mem (fun c v => v.Stands c) (fun k => sequence k opening closing start)
    (fun k => itemRound k opening closing start) ?_ ?_ ?_ ?_ h
  · intro c d v hcd hv
    exact hv.since hcd
  · intro c p hp
    cases hp
  · intro k c
    exact sequence_eq k opening closing start c
  · intro k hk c r hr
    exact gives_itemRound hr

theorem stands_of_members {start : Cursor} {ms : List (String × Value)}
    (h : members n start c = .ok (ms, d)) : ∀ m ∈ ms, m.2.Stands c := by
  refine Round.forall_mem (fun c m => m.2.Stands c) (fun k => members k start) (fun k =>
    memberRound k start) ?_ ?_ ?_ ?_ h
  · intro c d m hcd hm
    exact hm.since hcd
  · intro c p hp
    cases hp
  · intro k c
    exact members_eq k start c
  · intro k hk c r hr
    exact gives_memberRound hr

/-- What a value is read as: its span, its word or its text, and the values
in it, behind its first character. -/
structure ReadAs (c : Cursor) (v : Value) (d : Cursor) : Prop where
  span : v.span = c.spanTo d
  word : ∀ w, v.word? = some w → ∃ e, c.scanName = .ok (w, e)
  string : ∀ w, v.string? = some w → ∃ e, c.startsWith ['"'] = true ∧ c.scanAnyString = .ok (w, e)
  parts : ∃ b, c.Advances b ∧ ∀ p ∈ v.parts, p.Stands b

theorem readAs_of_none {b : Cursor} (hspan : v.span = c.spanTo d) (hword : v.word? = none)
    (hstring : v.string? = none) (hb : c.Advances b) (hparts : ∀ p ∈ v.parts, p.Stands b) :
    c.ReadAs v d := by
  refine ⟨hspan, ?_, ?_, b, hb, hparts⟩
  · simp [hword]
  · simp [hstring]

theorem readAs_of_name {b e : Cursor} {name : String} (hname : c.scanName = .ok (name, e))
    (hspan : v.span = c.spanTo d) (hword : v.word? = some name) (hstring : v.string? = none)
    (hb : c.Advances b) (hparts : ∀ p ∈ v.parts, p.Stands b) : c.ReadAs v d := by
  refine ⟨hspan, ?_, ?_, b, hb, hparts⟩
  · intro w hw
    obtain rfl : name = w := by simpa [hword] using hw
    exact ⟨e, hname⟩
  · simp [hstring]

theorem readAs_of_value (h : c.value n = .ok (v, d)) : c.ReadAs v d := by
  have hadvances := advances_of_value h
  have hleaf : ∀ v : Value, v.parts = [] → ∀ p ∈ v.parts, p.Stands d := by
    intro v hv
    simp [hv]
  cases n with
  | zero => cases h
  | succ n =>
    rw [value] at h
    split at h
    · cases h
    · next rest hrest =>
      obtain ⟨⟨text, e⟩, htext, heq⟩ := bind_eq_ok h
      cases heq
      refine ⟨rfl, by simp [Value.word?], ?_, d, hadvances, hleaf _ rfl⟩
      intro w hw
      cases hw
      exact ⟨d, startsWith_iff.2 ⟨rest, hrest⟩, htext⟩
    · next rest hrest =>
      obtain ⟨⟨items, e⟩, hitems, heq⟩ := bind_eq_ok h
      cases heq
      exact readAs_of_none rfl rfl rfl (advances_of_cons hrest) (stands_of_sequence hitems)
    · next rest hrest =>
      obtain ⟨⟨entries, e⟩, hentries, heq⟩ := bind_eq_ok h
      cases heq
      refine readAs_of_none rfl rfl rfl (advances_of_cons hrest) ?_
      intro p hp
      obtain ⟨m, hm, rfl⟩ := List.mem_map.1 hp
      exact stands_of_members hentries m hm
    · split at h
      · obtain ⟨⟨number, e⟩, -, heq⟩ := bind_eq_ok h
        cases heq
        exact readAs_of_none rfl rfl rfl hadvances (hleaf _ rfl)
      split at h
      · obtain ⟨⟨name, e⟩, hname, h⟩ := bind_eq_ok h
        -- `true`, `false` and `null` are scanned as names, but are values without a word.
        have hfront := ((proceeds_scanName (.refl c)).1 name e hname).2
        dsimp only at h
        split at h
        · cases h
          exact readAs_of_none rfl rfl rfl hadvances (hleaf _ rfl)
        split at h
        · cases h
          exact readAs_of_none rfl rfl rfl hadvances (hleaf _ rfl)
        split at h
        · cases h
          exact readAs_of_none rfl rfl rfl hadvances (hleaf _ rfl)
        split at h
        · next hparen =>
          obtain ⟨⟨args, f⟩, hargs, heq⟩ := bind_eq_ok h
          cases heq
          have hopen := hfront.trans (reaches_past (List.isPrefixOf_iff_prefix.1 hparen))
          exact readAs_of_name hname rfl rfl rfl hopen (stands_of_sequence hargs)
        · cases h
          exact readAs_of_name hname rfl rfl rfl hadvances (hleaf _ rfl)
      · cases h

end Cursor

namespace Value

variable {o : Cursor} {v : Value}

theorem Stands.parts (h : v.Stands o) : ∀ p ∈ v.parts, p.Stands o := by
  obtain ⟨a, d, n, ha, hv⟩ := h
  obtain ⟨b, hab, hparts⟩ := (Cursor.readAs_of_value hv).parts
  intro p hp
  exact (hparts p hp).since (ha.trans hab.reaches)

theorem Stands.tree (h : v.Stands o) : ∀ u ∈ v.tree, u.Stands o :=
  forall_mem_tree_of_parts (fun _ hv => hv.parts) v h

theorem Stands.hasName (h : v.Stands o) {w : String} (hw : v.word? = some w) :
    o.HasName v.span.start w := by
  obtain ⟨a, d, n, ha, hv⟩ := h
  have hread := Cursor.readAs_of_value hv
  obtain ⟨e, he⟩ := hread.word w hw
  exact ⟨a, e, ha, by rw [hread.span]; rfl, he⟩

theorem Stands.offset_le (h : v.Stands o) : o.pos.offset ≤ v.span.start.offset := by
  obtain ⟨a, d, n, ha, hv⟩ := h
  rw [(Cursor.readAs_of_value hv).span]
  exact ha.offset_le

/-- A value with those in it that have its span: a short form makes an array of a single value. -/
def outer (v : Value) : List Value := v :: v.parts.filter fun p => p.span = v.span

theorem Stands.outer_eq (h : v.Stands o) : v.outer = [v] := by
  obtain ⟨a, d, n, ha, hv⟩ := h
  have hread := Cursor.readAs_of_value hv
  obtain ⟨b, hab, hparts⟩ := hread.parts
  -- what stands between brackets starts behind the opening one
  have hlt : a.pos.offset < b.pos.offset := by
    obtain ⟨cs, hne, -, rfl⟩ := hab
    exact a.pos.offset_lt_after hne
  unfold outer
  rw [List.filter_eq_nil_iff.2]
  intro p hp heq
  have hle := (hparts p hp).offset_le
  rw [of_decide_eq_true heq, hread.span] at hle
  exact absurd hle (Nat.not_le_of_lt hlt)

end Value

/-! ## Lines -/

def Piece.Stands (o : Cursor) (p : Piece) : Prop :=
  ∃ a d : Cursor, o.Reaches a ∧ a.scanPiece = .ok (p, d) ∧ a.atWord "do" = false ∧
    a.atWord "end" = false

namespace Cursor

variable {o c d : Cursor} {n : Nat}

theorem scanValue_of_scanPiece {v : Value} (h : c.scanPiece = .ok (.value v, d)) :
    c.scanValue = .ok (v, d) := by
  unfold scanPiece at h
  split at h
  · cases h
  split at h
  · cases h
  · obtain ⟨⟨w, e⟩, hw, heq⟩ := bind_eq_ok h
    cases heq
    exact hw

/-- The pieces of a line stand in it, the first one at its front, and the
line stops where the last one does. -/
structure LineStands (o c : Cursor) (line : Line) : Prop where
  pieces : ∀ p ∈ line.pieces, p.Stands o
  first : ∀ p ∈ line.pieces.head?, p.span.start = c.skipInlineBlanks.pos
  last : line.stop = (line.pieces.getLast?.map fun p => p.span.stop).getD c.pos

theorem atWord_end_of_atLineEnd (h : c.atLineEnd = false) (hc : c.rest ≠ []) :
    c.atWord "end" = false := by
  obtain ⟨first, rest, hrest⟩ := List.exists_cons_of_ne_nil hc
  simp only [atLineEnd, hrest, Bool.or_eq_false_iff] at h
  exact h.2

theorem lineStands_of_linePieces {line : Line} (ho : o.Reaches c)
    (h : c.linePieces n c.pos = .ok (line, d)) : LineStands o c line := by
  induction n generalizing c line with
  | zero => cases h
  | succ n ih =>
    rw [linePieces_eq] at h
    obtain ⟨round, hround, h⟩ := bind_eq_ok h
    obtain ⟨opens, d, rfl⟩ | ⟨piece, e, hscan, hdo, hend, rfl⟩ := cases_pieceRound hround
    · cases h
      exact ⟨by simp, by simp, by simp⟩
    · obtain ⟨⟨more, f⟩, hmore, heq⟩ := bind_eq_ok h
      cases heq
      have hskip := c.reaches_skipInlineBlanks
      have hrest := ih (ho.trans (advances_of_pieceRound hround).reaches) hmore
      have hpos := Nat.zero_lt_of_lt (advances_of_scanPiece hscan).length_lt
      have hend := atWord_end_of_atLineEnd hend (List.length_pos_iff.1 hpos)
      have hspan : piece.span = c.skipInlineBlanks.spanTo e :=
        ((proceeds_scanPiece (.refl _)).1 piece e hscan).2.2.1
      refine ⟨List.forall_mem_cons.2 ⟨⟨_, e, ho.trans hskip, hscan, hdo, hend⟩, hrest.pieces⟩, ?_, ?_⟩
      · intro p hp
        obtain rfl : piece = p := by simpa using hp
        rw [hspan]
        rfl
      · show more.stop = _
        rw [hrest.last, List.getLast?_cons]
        cases more.pieces.getLast? with
        | none => simp [hspan, spanTo]
        | some p => rfl

theorem lineStands_of_scanLine {line : Line} (ho : o.Reaches c) (h : c.scanLine = .ok (line, d)) :
    LineStands o c line := lineStands_of_linePieces ho h

end Cursor

end Worldbook
