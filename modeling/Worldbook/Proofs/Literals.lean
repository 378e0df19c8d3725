import Worldbook.Proofs.Rereading

/-!
# Tokens and values read as themselves

The text of a number, of a string or of a value is read at any place of any
text, up to the character that closes it. Strings come back as they were, and
so do values whose whole numbers have 64 bits with sign. A greater whole
number is written digit by digit, but the reader has only doubles for it.
-/

namespace Worldbook

variable {c : Cursor} {tail : List Char}

theorem closed_nil : Closed [] := nofun

theorem closed_cons {ch : Char} (h : isCloser ch = true) (rest : List Char) : Closed (ch :: rest) := by
  intro x hx
  cases hx
  exact h

/-! ## Numbers -/

theorem Cursor.scanNumber_number {n : Number} (hn : Json.isHeld (.num n) = true) (ht : Closed tail)
    (hc : c.rest = (Written.number n).toList ++ tail) :
    c.scanNumber = .ok (n.reread, c.past (Written.number n).toList) := by
  obtain ⟨m, hm, htext, hvalue⟩ := Numeral.exists_spelled hn
  rw [htext] at hc ⊢
  rw [← hvalue]
  exact scanNumber_spelled hm ht hc

theorem Json.ofNumber_reread {n : Number} (hn : isHeld (.num n) = true) :
    ofNumber n.reread = .num n.reread := by
  unfold ofNumber
  rw [if_pos (Number.isFinite_reread hn)]

/-- Of the numbers that JSON holds only whole ones from `2 ^ 63` on are not narrow. -/
theorem Json.exists_wide {n : Number} (hn : isHeld (.num n) = true)
    (h : isNarrowNumber (.num n) = false) : ∃ k : Nat, n = .int k ∧ 2 ^ 63 ≤ k ∧ k < 2 ^ 64 ∧
    n.reread = .float (.ofDecimal false k 0) := by
  cases n with
  | float x => cases h
  | int i =>
    simp only [isHeld, Bool.and_eq_true, decide_eq_true_eq] at hn
    have hwide : ¬ (-9223372036854775808 ≤ i ∧ i < 9223372036854775808) := by
      simpa [isNarrowNumber, Number.inInt64] using h
    have hpos : 0 ≤ i := by omega
    have hsign : ¬ i < 0 := by omega
    refine ⟨i.toNat, ?_, by omega, by omega, ?_⟩
    · rw [Int.toNat_of_nonneg hpos]
    · have habs : i.natAbs = i.toNat := by omega
      have hout : Number.inInt64 i = false := h
      simp [Number.reread, hout, hsign, habs]

/-- The text of a number is scanned whole. A double and a whole number of 64
bits with sign come back as the same number of the same kind. A greater whole
number comes back as the double nearest to it, which equals no whole number. -/
theorem numbers_reread {n : Number} (hn : Json.isHeld (.num n) = true) (ht : Closed tail)
    (hc : c.rest = (Written.number n).toList ++ tail) :
    ∃ m, c.scanNumber = .ok (m, c.past (Written.number n).toList) ∧
      (Json.isNarrowNumber (.num n) = true → Json.ofNumber m = .num n) ∧
      (Json.isNarrowNumber (.num n) = false → ∃ k : Nat, n = .int k ∧ 2 ^ 63 ≤ k ∧ k < 2 ^ 64 ∧
        Json.ofNumber m = .num (.float (.ofDecimal false k 0)) ∧
        (Json.ofNumber m).same (.num n) = false) := by
  have hjson := Json.ofNumber_reread hn
  refine ⟨n.reread, Cursor.scanNumber_number hn ht hc, ?_, ?_⟩
  · intro hnarrow
    rw [hjson, Json.reread_of_narrow hnarrow]
  · intro hwide
    obtain ⟨k, rfl, hlow, hhigh, hreread⟩ := Json.exists_wide hn hwide
    rw [hjson, hreread]
    exact ⟨k, rfl, hlow, hhigh, rfl, rfl⟩

/-- The greatest whole number of 64 bits with sign comes back, and the next one as a double. -/
theorem numbers_reread_limit :
    (∃ m, (Cursor.ofText 0 "9223372036854775807, 1").scanNumber =
        .ok (m, (Cursor.ofText 0 "9223372036854775807, 1").past "9223372036854775807".toList) ∧
      Json.ofNumber m = .num (.int 9223372036854775807)) ∧
    ∃ m, (Cursor.ofText 0 "9223372036854775808]").scanNumber =
        .ok (m, (Cursor.ofText 0 "9223372036854775808]").past "9223372036854775808".toList) ∧
      (Json.ofNumber m).same (.num (.int 9223372036854775808)) = false := by
  refine ⟨?_, ?_⟩
  · obtain ⟨m, hm, hnarrow, -⟩ := @numbers_reread (.ofText 0 "9223372036854775807, 1") [',', ' ', '1']
      (.int 9223372036854775807) (by decide) (closed_cons (by decide) _) (by decide)
    exact ⟨m, hm, hnarrow (by decide)⟩
  · obtain ⟨m, hm, -, hwide⟩ := @numbers_reread (.ofText 0 "9223372036854775808]") [']']
      (.int 9223372036854775808) (by decide) (closed_cons (by decide) _) (by decide)
    obtain ⟨k, -, -, -, -, hsame⟩ := hwide (by decide)
    exact ⟨m, hm, hsame⟩

/-! ## Strings -/

theorem length_le_escaped (cs : List Char) :
    cs.length ≤ (cs.flatMap (Quoted.escape Written.isControl)).length := by
  induction cs with
  | nil => simp
  | cons ch cs ih =>
    obtain ⟨x, xs, hx, -⟩ := Cursor.escape_head ch
    rw [List.flatMap_cons, List.length_append, hx, List.length_cons, List.length_cons]
    omega

theorem Written.quote_ne (s : String) : quote s ≠ s := by
  intro h
  have hlength := congrArg (fun t : String => t.toList.length) h
  have hle := length_le_escaped s.toList
  simp only [Cursor.quote_toList, List.length_cons, List.length_append, List.length_nil] at hlength
  omega

theorem Written.string_eq_self (s : String) : string s = s ↔ isBare s = true := by
  unfold string
  by_cases h : isBare s = true
  · simp [h]
  · simp [h, quote_ne]

theorem Written.reference_eq_self (s : String) : reference s = s ↔ isVariable s.toList = true := by
  unfold reference
  by_cases h : isVariable s.toList = true
  · simp [h]
  · simp [h, quote_ne]

def Written.tokens (s : String) : List String := [string s, quote s, reference s]

/-- A token that is the string itself is a name and no reserved word. -/
theorem Written.token_cases {s text : String} (h : text ∈ tokens s) :
    text = quote s ∨ text = s ∧ isName s.toList = true ∧ isReserved s = false := by
  simp only [tokens, List.mem_cons, List.not_mem_nil, or_false] at h
  obtain rfl | rfl | rfl := h
  · by_cases hbare : isBare s = true
    · have hreserved : isReserved s = false := by simpa using (Bool.and_eq_true_iff.1 hbare).2
      exact .inr ⟨(string_eq_self s).2 hbare, isName_of_isBare hbare, hreserved⟩
    · exact .inl (if_neg hbare)
  · exact .inl rfl
  · by_cases hvar : isVariable s.toList = true
    · have hreserved := isReserved_of_hasSigil (hasSigil_of_isVariable hvar)
      exact .inr ⟨(reference_eq_self s).2 hvar, isName_of_isVariable hvar, hreserved⟩
    · exact .inl (if_neg hvar)

/-- A string is read back from each of its tokens, whole and as a value with
just its text. The value is a name when the token is the string itself, which
is so for the words that may stand bare, and a string otherwise. A bare token
is no reserved word, and neither `do` nor `end` is seen at it. -/
theorem strings_reread (s : String) {text : String} (htext : text ∈ Written.tokens s) (ht : Closed tail)
    (hc : c.rest = text.toList ++ tail) :
    (∃ v span, c.scanValue = .ok (v, c.past text.toList) ∧ v.text? = some s ∧
      (text = s → v = .name s span) ∧ (text ≠ s → v = .str s span)) ∧
    (text = s → isReserved text = false ∧ c.atWord "do" = false ∧ c.atWord "end" = false) ∧
    (Written.string s = s ↔ Written.isBare s = true) ∧ Written.quote s ≠ s ∧
    (Written.reference s = s ↔ isVariable s.toList = true) := by
  refine ⟨?_, ?_, Written.string_eq_self s, Written.quote_ne s, Written.reference_eq_self s⟩
  · obtain rfl | ⟨rfl, hname, hreserved⟩ := Written.token_cases htext
    · obtain ⟨v, hv, span, rfl⟩ := (reads_quote s).value c tail _ hc ht (Nat.le_refl _)
      exact ⟨_, span, hv, rfl, fun h => absurd h (Written.quote_ne s), fun _ => rfl⟩
    · obtain ⟨v, hv, span, rfl⟩ := (reads_name hname hreserved).value c tail _ hc ht (Nat.le_refl _)
      exact ⟨_, span, hv, rfl, fun _ => rfl, fun h => absurd rfl h⟩
  · intro hself
    subst hself
    obtain hquote | ⟨-, hname, hreserved⟩ := Written.token_cases htext
    · exact absurd hquote.symm (Written.quote_ne text)
    · have hsolid := (reads_name hname hreserved).solid c tail hc ht
      exact ⟨hreserved, hsolid.notDo, hsolid.notEnd⟩

/-- A reserved word is quoted, a joined one stands bare, and so does a
variable where a reference may stand. -/
theorem strings_reread_ending :
    (∃ v span, (Cursor.ofText 0 "\"end\"]").scanValue =
      .ok (v, (Cursor.ofText 0 "\"end\"]").past "\"end\"".toList) ∧
      v = .str "end" span) ∧
    (∃ v span, (Cursor.ofText 0 "end-game ").scanValue =
      .ok (v, (Cursor.ofText 0 "end-game ").past "end-game".toList) ∧
      v = .name "end-game" span) ∧
    (Cursor.ofText 0 "$end.do").atWord "end" = false := by
  refine ⟨?_, ?_, ?_⟩
  · obtain ⟨⟨v, span, hv, -, -, hquoted⟩, -⟩ := @strings_reread (.ofText 0 "\"end\"]") [']'] "end"
      "\"end\"" (by decide) (closed_cons (by decide) _) (by decide)
    exact ⟨v, span, hv, hquoted (by decide)⟩
  · obtain ⟨⟨v, span, hv, -, hbare, -⟩, -⟩ := @strings_reread (.ofText 0 "end-game ") [' '] "end-game"
      "end-game" (by decide) (closed_cons (by decide) _) (by decide)
    exact ⟨v, span, hv, hbare rfl⟩
  · have hword := @strings_reread (.ofText 0 "$end.do") [] "$end.do" "$end.do" (by decide)
      closed_nil (by decide)
    exact (hword.2.1 rfl).2.2

/-! ## Values -/

theorem Json.rereadMembers_eq_map (members : Record) :
    rereadMembers members = members.map fun m => (m.1, m.2.reread) := by
  induction members with
  | nil => rfl
  | cons m members ih =>
    obtain ⟨key, v⟩ := m
    rw [rereadMembers, ih, List.map_cons]

/-- What the text of a value reads as is equal to the value where whole
numbers are narrow: only the members of a call may have changed places. -/
theorem Json.same_reread {x : Json} (hx : x.isValid = true) (hn : x.isNarrow = true) :
    x.reread.same x = true := by
  induction x using induction with
  | null => rfl
  | bool b => simp [reread, same]
  | str s => simp [reread, same]
  | num n =>
    rw [reread, reread_of_narrow (every_self hn), same]
    exact n.same_refl
  | arr items ih =>
    have hnarrow := (every_arr.1 hn).2
    rw [reread, same, rereadItems_eq_map, sameItems_iff, List.forall₂_map_left_iff, List.forall₂_same]
    intro y hy
    exact ih y hy (isValid_items hx y hy) (hnarrow y hy)
  | obj members ih =>
    have hnarrow := (every_obj.1 hn).2
    have hmember : ∀ m ∈ members, ∃ y, members.get? m.1 = some y ∧ m.2.reread.same y = true := by
      intro m hm
      exact ⟨m.2, Record.get?_of_mem (nodup_of_isValid hx) hm,
        ih m hm (isValid_members hx m hm) (hnarrow m hm)⟩
    cases hcall : Written.call? members with
    | none =>
      rw [reread_obj hcall, same, Bool.and_eq_true, beq_iff_eq, length_rereadMembers, sameMembers_iff]
      refine ⟨rfl, ?_⟩
      rw [rereadMembers_eq_map]
      intro m hm
      obtain ⟨m', hm', rfl⟩ := List.mem_map.1 hm
      exact hmember m' hm'
    | some p =>
      obtain ⟨name, args⟩ := p
      obtain ⟨hlength, hname, hargs, -, -⟩ := Written.call?_eq_some.1 hcall
      have hsame : ∃ y, members.get? "args" = some y ∧ (Json.arr (rereadItems args)).same y = true :=
        hmember _ (Record.mem_of_get? hargs)
      have hword : (Json.str name).same (.str name) = true := by simp [same]
      rw [reread_call hcall, same, Bool.and_eq_true, beq_iff_eq, sameMembers_iff]
      refine ⟨hlength.symm, ?_⟩
      simpa [hname, hword] using hsame

/-- A value whose numbers are doubles and whole numbers of 64 bits with sign is
read back from its text, whole and equal in meaning. So it is from its text for
a place where references stand, and no binding of any scope changes it there. -/
theorem literals_reread {x : Json} (hx : x.isValid = true) (hn : x.isNarrow = true) (ht : Closed tail) :
    (c.rest = (Written.value x).toList ++ tail →
      ∃ v, c.scanValue = .ok (v, c.past (Written.value x).toList) ∧ v.literal.same x = true) ∧
    (c.rest = (Written.referenceValue x).toList ++ tail →
      ∃ v, c.scanValue = .ok (v, c.past (Written.referenceValue x).toList) ∧
        ∀ k : Context, ∃ y, (CompileM.reference v).run k = (y, k) ∧ y.same x = true) := by
  have hsame := Json.same_reread hx hn
  refine ⟨?_, ?_⟩
  · intro hc
    obtain ⟨v, hv, hspells⟩ := (reads_value hx).value c tail _ hc ht (Nat.le_refl _)
    refine ⟨v, hv, ?_⟩
    rw [hspells.literal]
    exact hsame
  · intro hc
    obtain ⟨v, hv, hrefers⟩ := (reads_referenceValue hx).value c tail _ hc ht (Nat.le_refl _)
    refine ⟨v, hv, ?_⟩
    intro k
    refine ⟨v.resolved k.scope, rfl, ?_⟩
    rw [hrefers.resolved]
    exact hsame

/-- A call with its members turned round, a reserved word, a key to be quoted
and a double, and the name of a binding. -/
theorem literals_reread_call :
    (∃ v d, (Cursor.ofText 0
        "\x7bcall: \x7b\"\": [\"end\", -0.0]\x7d, note: curve(npc, \x7b\x7d)\x7d").scanValue =
          .ok (v, d) ∧
      d.rest = [] ∧ v.literal.same (.obj [
        ("call", .obj [("", .arr [.str "end", .num (.float (.zero true))])]),
        ("note", .obj [("args", .arr [.str "npc", .obj []]), ("call", .str "curve")])]) = true) ∧
    ∃ v d, (Cursor.ofText 0 "[\"hero\", $hero.kind] do").scanValue = .ok (v, d) ∧
      d.rest = " do".toList ∧
      ∃ y, (CompileM.reference v).run ⟨⟨["hero"]⟩, []⟩ = (y, ⟨⟨["hero"]⟩, []⟩) ∧
        y.same (.arr [.str "hero", .str "$hero.kind"]) = true := by
  refine ⟨?_, ?_⟩
  · obtain ⟨v, hv, hsame⟩ := (@literals_reread
      (.ofText 0 "\x7bcall: \x7b\"\": [\"end\", -0.0]\x7d, note: curve(npc, \x7b\x7d)\x7d") []
      (.obj [("call", .obj [("", .arr [.str "end", .num (.float (.zero true))])]),
        ("note", .obj [("args", .arr [.str "npc", .obj []]), ("call", .str "curve")])])
      (by decide +kernel) (by decide +kernel) closed_nil).1 (by decide +kernel)
    exact ⟨v, _, hv, by decide +kernel, hsame⟩
  · obtain ⟨v, hv, hsame⟩ := (@literals_reread (.ofText 0 "[\"hero\", $hero.kind] do") [' ', 'd', 'o']
      (.arr [.str "hero", .str "$hero.kind"]) (by decide +kernel) (by decide +kernel)
      (closed_cons (by decide) _)).2
      (by decide +kernel)
    exact ⟨v, _, hv, by decide +kernel, hsame _⟩

end Worldbook
