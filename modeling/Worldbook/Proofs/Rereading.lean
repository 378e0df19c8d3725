import Worldbook.Proofs.Values

/-!
# Rereading keeps the meaning

What the text of a value reads as recovers the value, and for a tame value it is written with the
same text again.
-/

namespace Worldbook

theorem Binary64.same_refl (x : Binary64) : x.same x = true := by
  cases x <;> simp [same]

theorem Number.same_refl (n : Number) : n.same n = true := by
  cases n <;> simp [same, Binary64.same_refl]

namespace Json

theorem rereadItems_eq_map (items : List Json) : rereadItems items = items.map reread := by
  induction items with
  | nil => rfl
  | cons v items ih => rw [rereadItems, ih, List.map_cons]

theorem get?_rereadMembers (members : Record) (key : String) :
    Record.get? (rereadMembers members) key = (members.get? key).map reread := by
  induction members with
  | nil => rfl
  | cons m members ih =>
    obtain ⟨k, v⟩ := m
    rw [rereadMembers, Record.get?_cons, Record.get?_cons, ih]
    split <;> rfl

theorem length_rereadMembers (members : Record) : (rereadMembers members).length = members.length := by
  have := congrArg List.length (keys_rereadMembers members)
  simpa [Record.keys] using this

theorem reread_eq_str {x : Json} {s : String} : x.reread = .str s ↔ x = .str s := by
  cases x with
  | obj members => obtain ⟨_, h⟩ := exists_reread_obj members; simp [h]
  | _ => simp [reread]

theorem reread_eq_arr {x : Json} {ys : List Json} :
    x.reread = .arr ys ↔ ∃ xs, x = .arr xs ∧ ys = rereadItems xs := by
  cases x with
  | obj members => obtain ⟨_, h⟩ := exists_reread_obj members; simp [h]
  | arr items => simp [reread, eq_comm]
  | _ => simp [reread]

theorem array?_reread_eq_none {x : Json} : x.reread.array? = none ↔ x.array? = none := by
  cases x with
  | obj members => obtain ⟨_, h⟩ := exists_reread_obj members; simp [h, array?]
  | _ => simp [reread, array?]

theorem reread_call {members : Record} {name : String} {args : List Json}
    (h : Written.call? members = some (name, args)) :
    (Json.obj members).reread = .obj [("call", .str name), ("args", .arr (rereadItems args))] := by
  rw [reread, h, Written.rereadArgs_of_call? h]

theorem reread_obj {members : Record} (h : Written.call? members = none) :
    (Json.obj members).reread = .obj (rereadMembers members) := by
  rw [reread, h]

theorem call?_of_call {name : String} {args : List Json} (hn : Written.isPlainKey name = true)
    (ha : ∀ v ∈ args, v.array? = none) :
    Written.call? [("call", .str name), ("args", .arr (rereadItems args))] =
      some (name, rereadItems args) := by
  refine Written.call?_eq_some.2 ⟨rfl, rfl, rfl, hn, fun v hv => ?_⟩
  rw [rereadItems_eq_map] at hv
  obtain ⟨x, hx, rfl⟩ := List.mem_map.1 hv
  exact array?_reread_eq_none.2 (ha x hx)

/-- An object that is no call is not reread as one. -/
theorem call?_rereadMembers {members : Record} (h : Written.call? members = none) :
    Written.call? (rereadMembers members) = none := by
  rw [Option.eq_none_iff_forall_ne_some] at h ⊢
  rintro ⟨name, args⟩ hc
  obtain ⟨hlen, hname, hargs, hp, ha⟩ := Written.call?_eq_some.1 hc
  rw [length_rereadMembers] at hlen
  rw [get?_rereadMembers, Option.map_eq_some_iff] at hname hargs
  obtain ⟨x, hx, hxs⟩ := hname
  obtain ⟨y, hy, hys⟩ := hargs
  obtain rfl := reread_eq_str.1 hxs
  obtain ⟨xs, rfl, rfl⟩ := reread_eq_arr.1 hys
  refine h (name, xs) (Written.call?_eq_some.2 ⟨hlen, hx, hy, hp, fun v hv => ?_⟩)
  exact array?_reread_eq_none.1 (ha v.reread (by rw [rereadItems_eq_map]; exact List.mem_map_of_mem hv))

theorem recovers_reread {x : Json} (hx : x.isValid = true) : Recovers x x.reread := by
  induction x using induction with
  | num n => exact Number.same_refl n.reread
  | arr items ih =>
    rw [reread, recovers_arr, rereadItems_eq_map]
    refine ⟨_, rfl, ?_⟩
    rw [List.forall₂_map_right_iff, List.forall₂_same]
    exact fun y hy => ih y hy (isValid_items hx y hy)
  | obj members ih =>
    have hnodup := nodup_of_isValid hx
    have hrec : ∀ key, Option.Rel Recovers (members.get? key) ((members.get? key).map reread) := by
      intro key
      cases hk : members.get? key with
      | none => exact .none
      | some y =>
        have hm := Record.mem_of_get? hk
        exact .some (ih _ hm (isValid_members hx _ hm))
    cases hcall : Written.call? members with
    | none =>
      rw [reread_obj hcall]
      refine recovers_of_get? hnodup (by rw [keys_rereadMembers]; exact hnodup) fun key => ?_
      rw [get?_rereadMembers]
      exact hrec key
    | some p =>
      obtain ⟨name, args⟩ := p
      rw [reread_call hcall]
      refine recovers_of_get? hnodup (by simp [Record.keys]) fun key => ?_
      have := hrec key
      rcases (Written.call?_cases hcall).2.2 with rfl | rfl <;>
        simp only [Record.get?_cons, Record.get?_nil] at this ⊢ <;> split_ifs at this ⊢ <;>
        simp_all [reread]
  | _ => simp [reread, Recovers]

theorem recovers_rereadMembers {members : Record} (h : (Json.obj members).isValid = true) :
    Recovers (.obj members) (.obj (rereadMembers members)) := by
  have hnodup := nodup_of_isValid h
  refine recovers_of_get? hnodup (by rw [keys_rereadMembers]; exact hnodup) fun key => ?_
  rw [get?_rereadMembers]
  cases hk : members.get? key with
  | none => exact .none
  | some y => exact .some (recovers_reread (isValid_members h _ (Record.mem_of_get? hk)))

end Json

namespace Written

/-- The text of a tame value is the text of what it reads as, and so is that
of each of its items. -/
theorem value_reread_and_items {x : Json} (hx : x.isTame = true) : value x.reread = value x ∧
    ∀ items, x = .arr items → ∀ y ∈ items, value y.reread = value y := by
  induction x using Json.induction with
  | num n =>
    refine ⟨?_, fun items h => by cases h⟩
    rw [Json.reread, Json.reread_of_narrow (Json.every_self ((Json.isTame_iff _).1 hx).2.1)]
  | arr items ih =>
    have hitems := fun y hy => (ih y hy ((Json.every_arr.1 hx).2 y hy)).1
    refine ⟨?_, fun items' he y hy => hitems y (by cases he; exact hy)⟩
    rw [Json.reread, Json.rereadItems_eq_map, value, value, values_eq_map, values_eq_map, List.map_map]
    exact congrArg (fun ts => "[" ++ String.intercalate ", " ts ++ "]") (List.map_congr_left hitems)
  | obj members ih =>
    refine ⟨?_, fun items h => by cases h⟩
    have htame := (Json.every_obj.1 hx).2
    cases hcall : call? members with
    | none =>
      rw [Json.reread_obj hcall, value, value, hcall, Json.call?_rereadMembers hcall]
      have hm : memberValues (Json.rereadMembers members) = memberValues members := by
        -- These are about all members, the induction about fewer.
        clear hcall hx
        induction members with
        | nil => rfl
        | cons m members ihm =>
          obtain ⟨key, v⟩ := m
          rw [Json.rereadMembers, memberValues, memberValues,
            (ih _ (List.mem_cons_self ..) (htame _ (List.mem_cons_self ..))).1,
            ihm (fun m hm => ih m (List.mem_cons_of_mem _ hm)) fun m hm =>
              htame m (List.mem_cons_of_mem _ hm)]
      simp only [hm]
    | some p =>
      obtain ⟨name, args⟩ := p
      obtain ⟨-, -, hargs, hname, ha⟩ := call?_eq_some.1 hcall
      have hmem := Record.mem_of_get? hargs
      have hitems := (ih _ hmem (htame _ hmem)).2 args rfl
      rw [Json.reread_call hcall, value, value, hcall, Json.call?_of_call hname ha]
      simp only [callArgs, callArgs_of_call? hcall]
      rw [values_eq_map, values_eq_map, Json.rereadItems_eq_map, List.map_map]
      exact congrArg (fun ts => name ++ "(" ++ String.intercalate ", " ts ++ ")")
        (List.map_congr_left hitems)
  | _ => simp [Json.reread]

theorem value_reread {x : Json} (hx : x.isTame = true) : value x.reread = value x :=
  (value_reread_and_items hx).1

theorem referenceValue_reread {x : Json} (hx : x.isTame = true) :
    referenceValue x.reread = referenceValue x := by
  induction x using Json.induction with
  | str s => rfl
  | arr items ih =>
    have hitems := fun y hy => ih y hy ((Json.every_arr.1 hx).2 y hy)
    rw [Json.reread, Json.rereadItems_eq_map, referenceValue, referenceValue, referenceValues_eq_map,
      referenceValues_eq_map, List.map_map]
    exact congrArg (fun ts => "[" ++ String.intercalate ", " ts ++ "]") (List.map_congr_left hitems)
  | obj members _ =>
    obtain ⟨members', hr⟩ := Json.exists_reread_obj members
    have := value_reread hx
    rw [hr] at this ⊢
    exact this
  | _ => exact value_reread hx

theorem fieldValue_reread (key : String) {x : Json} (hx : x.isTame = true) :
    fieldValue key x.reread = fieldValue key x := by
  rw [fieldValue, fieldValue, value_reread hx, referenceValue_reread hx]

end Written

end Worldbook
