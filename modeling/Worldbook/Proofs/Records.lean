import Worldbook.Proofs.Silence

/-!
# Records that are written alike

What a language looks at in a record is the same in a record that recovers it: which fields there
are, the texts among them and whether the others can be written. Where the fields are reread one by
one, the numbers and the values on the line are the same as well.
-/

namespace Worldbook

namespace Written

/-! ## Fields of a record -/

theorem text?_eq_some {o : Record} {key s : String} :
    text? o key = some s ↔ o.get? key = some (.str s) := by
  simp only [text?, Option.bind_eq_some_iff, Json.string?_eq_some]
  exact ⟨fun ⟨_, h, hs⟩ => hs ▸ h, fun h => ⟨_, h, rfl⟩⟩

theorem optionalText?_eq_some {o : Record} {key : String} {t : Option String} :
    optionalText? o key = some t ↔ o.get? key = t.map .str := by
  rw [optionalText?]
  cases h : o.get? key with
  | none => cases t <;> simp
  | some v => cases v <;> cases t <;> simp

theorem number?_eq_some {o : Record} {key w : String} :
    number? o key = some w ↔ ∃ n, o.get? key = some (.num n) ∧ w = number n := by
  simp only [number?, Option.map_eq_some_iff, Option.bind_eq_some_iff, Json.number?_eq_some]
  constructor
  · rintro ⟨n, ⟨_, h, rfl⟩, rfl⟩
    exact ⟨n, h, rfl⟩
  · rintro ⟨n, h, rfl⟩
    exact ⟨n, ⟨_, h, rfl⟩, rfl⟩

/-- The alias of a record is a binding. -/
theorem aliasWord?_eq_some {o : Record} {ws : List String} : aliasWord? o = some ws ↔
    ∃ bound, optionalText? o "as" = some bound ∧ (∀ a ∈ bound, isBinding a.toList = true) ∧
    bound.toList = ws := by
  simp only [aliasWord?, Option.bind_eq_bind, Option.bind_eq_some_iff]
  refine exists_congr fun bound => and_congr_right fun _ => ?_
  cases bound with
  | none => simp
  | some a => simp [alias?, Option.bind_eq_some_iff]

theorem strings?_eq_some {j : Json} {ss : List String} :
    strings? j = some ss ↔ ss ≠ [] ∧ j = .arr (ss.map .str) := by
  have hmap : ∀ (items : List Json) (ss : List String),
      items.mapM Json.string? = some ss ↔ items = ss.map .str := by
    intro items
    induction items with
    | nil => intro ss; cases ss <;> simp
    | cons v items ih =>
      intro ss
      simp only [List.mapM_cons, Option.pure_def, Option.bind_eq_bind, Option.bind_eq_some_iff,
        Json.string?_eq_some, ih, Option.some.injEq]
      constructor
      · rintro ⟨s, rfl, ts, rfl, rfl⟩
        rfl
      · rintro h
        cases ss with
        | nil => cases h
        | cons s ss => cases h; exact ⟨s, rfl, ss, rfl, rfl⟩
  cases j with
  | arr items =>
    cases items with
    | nil => cases ss <;> simp [strings?]
    | cons v items =>
      simp only [strings?, hmap, Json.arr.injEq]
      refine ⟨fun h => ⟨?_, h⟩, fun h => h.2⟩
      rintro rfl
      cases h
  | _ => simp [strings?]

/-- Bounds are written from the numbers among them only. -/
theorem bounds?_eq (o : Record) : bounds? o =
    match (o.get? "min").map Json.number?, (o.get? "max").map Json.number? with
    | none, none => some []
    | some (some low), none => some [">=", number low]
    | none, some (some high) => some ["<=", number high]
    | some (some low), some (some high) =>
      if low.same high then some ["==", number low] else some ["==", number low ++ ",", number high]
    | _, _ => none := by
  rw [bounds?]
  rcases o.get? "min" with _ | (_ | _ | _ | _ | _ | _) <;>
    rcases o.get? "max" with _ | (_ | _ | _ | _ | _ | _) <;> rfl

theorem isValid_of_get? {o : Record} (h : (Json.obj o).isValid = true) {key : String} {v : Json}
    (hv : o.get? key = some v) : v.isValid = true :=
  Json.isValid_members h _ (Record.mem_of_get? hv)

theorem isHeld_of_get? {o : Record} (h : (Json.obj o).isValid = true) {key : String} {n : Number}
    (hn : o.get? key = some (.num n)) : Json.isHeld (.num n) = true :=
  Json.every_self (isValid_of_get? h hn)

end Written

/-! ## Records that recover each other -/

structure Alike (o o' : Record) : Prop where
  nodup : o.keys.Nodup
  nodup' : o'.keys.Nodup
  rel : ∀ key, Option.Rel (fun x y => x.isTame = true ∧ Json.Recovers x y) (o.get? key) (o'.get? key)

theorem alike_of_recovers {o o' : Record} (ht : (Json.obj o).isTame = true)
    (h : Json.Recovers (.obj o) (.obj o')) : Alike o o' := by
  have hnodup := Json.nodup_of_isValid (Json.isValid_of_isTame ht)
  refine ⟨hnodup, h.1, fun key => ?_⟩
  cases hk : o.get? key with
  | none =>
    have : o'.get? key = none := by
      rw [Record.get?_eq_none_iff] at hk ⊢
      exact fun hm => hk (h.2.1 key hm)
    rw [this]
    exact .none
  | some x =>
    have hm := Record.mem_of_get? hk
    obtain ⟨y, hy, hr⟩ := Json.get?_of_recovers ht h hm
    rw [hy]
    exact .some ⟨(Json.every_obj.1 ht).2 _ hm, hr⟩

namespace Alike

variable {o o' : Record}

theorem get?_isSome (h : Alike o o') (key : String) : (o'.get? key).isSome = (o.get? key).isSome := by
  have := h.rel key
  revert this
  generalize o.get? key = a
  generalize o'.get? key = b
  rintro (_ | _) <;> rfl

theorem mem_keys (h : Alike o o') (key : String) : key ∈ o'.keys ↔ key ∈ o.keys := by
  rw [← Record.has_iff, ← Record.has_iff, Record.has, Record.has, h.get?_isSome]

theorem has (h : Alike o o') (key : String) : o'.has key = o.has key := h.get?_isSome key

theorem length (h : Alike o o') : o'.length = o.length :=
  Json.length_eq_of_keys h.nodup h.nodup' h.mem_keys

theorem hasOnly (h : Alike o o') (allowed : List String) : o'.hasOnly allowed = o.hasOnly allowed := by
  rw [Bool.eq_iff_iff, Record.hasOnly_iff, Record.hasOnly_iff]
  exact ⟨fun hk key hm => hk key ((h.mem_keys key).2 hm), fun hk key hm =>
    hk key ((h.mem_keys key).1 hm)⟩

end Alike

/-! ## What recovered values have in common -/

namespace Json

theorem recovers_num {m : Number} {y : Json} :
    Recovers (.num m) y ↔ ∃ n, y = .num n ∧ n.same m.reread = true := by
  cases y <;> simp [Recovers]

theorem recovers_obj_exists {xs : Record} {y : Json} (h : Recovers (.obj xs) y) :
    ∃ ys, y = .obj ys := by
  cases y with
  | obj ys => exact ⟨ys, rfl⟩
  | _ => cases h

theorem recovers_of_str {x : Json} {s : String} (h : Recovers x (.str s)) : x = .str s := by
  cases x <;> simp_all [Recovers]

theorem string?_of_recovers {x y : Json} (h : Recovers x y) : y.string? = x.string? := by
  cases x <;> cases y <;> simp_all [Recovers, string?]

theorem isSome_number?_of_recovers {x y : Json} (h : Recovers x y) :
    y.number?.isSome = x.number?.isSome := by
  cases x <;> cases y <;> simp_all [Recovers, number?]

theorem isNone_array?_of_recovers {x y : Json} (h : Recovers x y) :
    y.array?.isNone = x.array?.isNone := by
  cases x <;> cases y <;> simp_all [Recovers, array?]

theorem forall₂_recovers_str {ss : List String} {ys : List Json} :
    List.Forall₂ Recovers (ss.map .str) ys ↔ ys = ss.map .str := by
  rw [List.forall₂_map_left_iff]
  induction ss generalizing ys with
  | nil => simp
  | cons s ss ih =>
    cases ys with
    | nil => simp
    | cons y ys => rw [List.forall₂_cons, ih, recovers_str, List.map_cons, List.cons.injEq]

theorem forall₂_recovers_of_str {xs : List Json} {ss : List String}
    (h : List.Forall₂ Recovers xs (ss.map .str)) : xs = ss.map .str := by
  rw [List.forall₂_map_right_iff] at h
  induction h with
  | nil => rfl
  | cons hs _ ih => rw [recovers_of_str hs, ih, List.map_cons]

theorem strings?_of_recovers {x y : Json} (h : Recovers x y) :
    Written.strings? y = Written.strings? x := by
  apply Option.ext
  intro ss
  rw [Written.strings?_eq_some, Written.strings?_eq_some]
  refine and_congr_right fun _ => ⟨?_, ?_⟩
  · rintro rfl
    cases x with
    | arr xs =>
      obtain ⟨ys, hys, hr⟩ := recovers_arr.1 h
      cases hys
      rw [forall₂_recovers_of_str hr]
    | _ => cases h
  · rintro rfl
    obtain ⟨ys, rfl, hr⟩ := recovers_arr.1 h
    rw [forall₂_recovers_str.1 hr]

end Json

theorem any_const {α : Type} (x : Option α) (b : Bool) : x.any (fun _ => b) = (x.isSome && b) := by
  cases x <;> rfl

theorem forall₂_all {α β : Type} {R : α → β → Prop} {p : α → Bool} {q : β → Bool}
    (h : ∀ a b, R a b → q b = p a) {xs : List α} {ys : List β} (hr : List.Forall₂ R xs ys) :
    ys.all q = xs.all p := by
  induction hr with
  | nil => rfl
  | cons hab _ ih => rw [List.all_cons, List.all_cons, ih, h _ _ hab]

theorem forall₂_and_left {α β : Type} {R : α → β → Prop} {P : α → Prop} {xs : List α} {ys : List β}
    (hp : ∀ a ∈ xs, P a) (hr : List.Forall₂ R xs ys) : List.Forall₂ (fun a b => P a ∧ R a b) xs ys :=
  List.forall₂_iff_get.2 ⟨hr.length_eq, fun i h h' =>
    ⟨hp _ (List.get_mem ..), (List.forall₂_iff_get.1 hr).2 i h h'⟩⟩

namespace Alike

open Written

variable {o o' : Record}

theorem cases_get? (h : Alike o o') (key : String) : (o.get? key = none ∧ o'.get? key = none) ∨
    ∃ x y, o.get? key = some x ∧ o'.get? key = some y ∧ x.isTame = true ∧ Json.Recovers x y := by
  have := h.rel key
  cases hx : o.get? key with
  | none => rw [hx] at this; cases hy : o'.get? key <;> simp_all
  | some x =>
    rw [hx] at this
    cases hy : o'.get? key with
    | none => rw [hy] at this; cases this
    | some y => rw [hy] at this; cases this with | some hr => exact .inr ⟨x, y, rfl, rfl, hr⟩

theorem exists_of_mem (h : Alike o o') {m : String × Json} (hm : m ∈ o) :
    ∃ y, (m.1, y) ∈ o' ∧ m.2.isTame = true ∧ Json.Recovers m.2 y := by
  have hget := Record.get?_of_mem h.nodup hm
  rcases h.cases_get? m.1 with ⟨hx, -⟩ | ⟨x, y, hx, hy, ht, hr⟩
  · rw [hget] at hx
    cases hx
  · rw [hget] at hx
    cases hx
    exact ⟨y, Record.mem_of_get? hy, ht, hr⟩

theorem exists_of_mem' (h : Alike o o') {m : String × Json} (hm : m ∈ o') :
    ∃ x, (m.1, x) ∈ o ∧ x.isTame = true ∧ Json.Recovers x m.2 := by
  have hget := Record.get?_of_mem h.nodup' hm
  rcases h.cases_get? m.1 with ⟨-, hy⟩ | ⟨x, y, hx, hy, ht, hr⟩
  · rw [hget] at hy
    cases hy
  · rw [hget] at hy
    cases hy
    exact ⟨x, Record.mem_of_get? hx, ht, hr⟩

theorem text? (h : Alike o o') (key : String) : Written.text? o' key = Written.text? o key := by
  rcases h.cases_get? key with ⟨hx, hy⟩ | ⟨x, y, hx, hy, -, hr⟩
  · simp [Written.text?, hx, hy]
  · simp [Written.text?, hx, hy, Json.string?_of_recovers hr]

theorem optionalText? (h : Alike o o') (key : String) :
    Written.optionalText? o' key = Written.optionalText? o key := by
  rcases h.cases_get? key with ⟨hx, hy⟩ | ⟨x, y, hx, hy, -, hr⟩
  · simp [Written.optionalText?, hx, hy]
  · cases x <;> cases y <;> simp_all [Written.optionalText?, Json.Recovers]

theorem aliasWord? (h : Alike o o') : Written.aliasWord? o' = Written.aliasWord? o := by
  rw [Written.aliasWord?, Written.aliasWord?, h.optionalText?]

theorem strings? (h : Alike o o') (key : String) :
    (o'.get? key).bind Written.strings? = (o.get? key).bind Written.strings? := by
  rcases h.cases_get? key with ⟨hx, hy⟩ | ⟨x, y, hx, hy, -, hr⟩
  · simp [hx, hy]
  · simp [hx, hy, Json.strings?_of_recovers hr]

theorem isSome_number? (h : Alike o o') (key : String) :
    (Written.number? o' key).isSome = (Written.number? o key).isSome := by
  rcases h.cases_get? key with ⟨hx, hy⟩ | ⟨x, y, hx, hy, -, hr⟩
  · simp [Written.number?, hx, hy]
  · simp [Written.number?, hx, hy, Json.isSome_number?_of_recovers hr]

theorem isEmpty_bounds? (h : Alike o o') :
    (bounds? o').map List.isEmpty = (bounds? o).map List.isEmpty := by
  have hkind : ∀ r : Record, (bounds? r).map List.isEmpty =
      match (r.get? "min").map (·.number?.isSome), (r.get? "max").map (·.number?.isSome) with
      | none, none => some true
      | some true, none | none, some true | some true, some true => some false
      | _, _ => none := by
    intro r
    rw [bounds?_eq]
    rcases r.get? "min" with _ | x
    · rcases r.get? "max" with _ | y
      · rfl
      · rcases hy : y.number? with _ | _ <;> simp [hy]
    · rcases r.get? "max" with _ | y
      · rcases hx : x.number? with _ | _ <;> simp [hx]
      · rcases hx : x.number? with _ | _ <;> rcases hy : y.number? with _ | _ <;> simp [hx, hy]
        split <;> simp
  have hnum : ∀ key, (o'.get? key).map (·.number?.isSome) = (o.get? key).map (·.number?.isSome) := by
    intro key
    rcases h.cases_get? key with ⟨hx, hy⟩ | ⟨x, y, hx, hy, -, hr⟩
    · rw [hx, hy]
    · rw [hx, hy, Option.map_some, Option.map_some, Json.isSome_number?_of_recovers hr]
  rw [hkind, hkind, hnum, hnum]

theorem isSome_bounds? (h : Alike o o') : (bounds? o').isSome = (bounds? o).isSome := by
  have := congrArg Option.isSome h.isEmpty_bounds?
  rwa [Option.isSome_map, Option.isSome_map] at this

theorem isSome_requiredBounds? (h : Alike o o') :
    (requiredBounds? o').isSome = (requiredBounds? o).isSome := by
  have hany : ∀ r : Record, (requiredBounds? r).isSome = ((bounds? r).map List.isEmpty).any (!·) := by
    intro r
    rw [requiredBounds?]
    cases bounds? r with
    | none => rfl
    | some ws => cases ws <;> rfl
  rw [hany, hany, h.isEmpty_bounds?]

end Alike

namespace Record

theorem get?_filter (r : Record) (p : String → Bool) (key : String) :
    get? (r.filter fun m => p m.1) key = if p key then r.get? key else none := by
  induction r with
  | nil => simp
  | cons m r ih =>
    obtain ⟨k, v⟩ := m
    rw [List.filter_cons]
    by_cases hk : k = key
    · subst hk
      cases hp : p k <;> simp [hp, get?_cons, ih]
    · cases hp : p k <;> simp [get?_cons, ih, hk]

theorem nodup_filter {r : Record} (h : r.keys.Nodup) (p : String × Json → Bool) :
    (keys (r.filter p)).Nodup :=
  h.sublist (List.filter_sublist.map _)

end Record

namespace Alike

open Written

variable {o o' : Record}

theorem filter (h : Alike o o') (p : String → Bool) :
    Alike (o.filter fun m => p m.1) (o'.filter fun m => p m.1) := by
  refine ⟨Record.nodup_filter h.nodup _, Record.nodup_filter h.nodup' _, fun key => ?_⟩
  rw [Record.get?_filter, Record.get?_filter]
  split
  · exact h.rel key
  · exact .none

theorem isSome_call? (h : Alike o o') : (call? o').isSome = (call? o).isSome := by
  have hargs : ∀ r : Record, (call? r).isSome = (decide (r.length = 2) &&
      (Written.text? r "call").any isPlainKey &&
      (r.get? "args").any fun v => v.array?.any fun args => args.all (·.array?.isNone)) := by
    intro r
    rw [Bool.eq_iff_iff, Option.isSome_iff_exists]
    simp only [Prod.exists, call?_eq_some, Bool.and_eq_true, decide_eq_true_eq, Option.any_eq_true,
      List.all_eq_true, Option.isNone_iff_eq_none, text?_eq_some, Json.array?_eq_some]
    constructor
    · rintro ⟨name, args, hl, hn, ha, hp, hargs⟩
      exact ⟨⟨hl, name, hn, hp⟩, _, ha, args, rfl, hargs⟩
    · rintro ⟨⟨hl, name, hn, hp⟩, _, ha, args, rfl, hargs⟩
      exact ⟨name, args, hl, hn, ha, hp, hargs⟩
  rw [hargs, hargs, h.length, h.text?]
  congr 1
  rcases h.cases_get? "args" with ⟨hx, hy⟩ | ⟨x, y, hx, hy, -, hr⟩
  · rw [hx, hy]
  · rw [hx, hy, Option.any_some, Option.any_some]
    cases x with
    | arr xs =>
      obtain ⟨ys, rfl, hys⟩ := Json.recovers_arr.1 hr
      exact forall₂_all (fun _ _ hr => Json.isNone_array?_of_recovers hr) hys
    | _ => cases y <;> simp_all [Json.array?, Json.Recovers]

theorem isScalar_of_recovers {x y : Json} (ht : x.isTame = true) (h : Json.Recovers x y) :
    isScalar y = isScalar x := by
  cases x with
  | obj xs =>
    obtain ⟨ys, rfl⟩ := Json.recovers_obj_exists h
    exact (alike_of_recovers ht h).isSome_call?
  | _ => cases y <;> simp_all [isScalar, Json.Recovers]

theorem isInline_of_recovers {x y : Json} (ht : x.isTame = true) (h : Json.Recovers x y) :
    isInline y = isInline x := by
  cases x with
  | arr xs =>
    obtain ⟨ys, rfl, hys⟩ := Json.recovers_arr.1 h
    have hall : List.Forall₂ (fun x y => x.isTame = true ∧ Json.Recovers x y) xs ys :=
      forall₂_and_left (Json.every_arr.1 ht).2 hys
    simp only [isInline]
    rw [forall₂_all (fun _ _ hr => isScalar_of_recovers hr.1 hr.2) hall]
    cases hys <;> rfl
  | obj xs =>
    obtain ⟨ys, rfl⟩ := Json.recovers_obj_exists h
    exact isScalar_of_recovers ht h
  | _ => cases y <;> simp_all [isInline, isScalar, Json.Recovers]

theorem isSome_pairs?_iff {r : Record} :
    (Written.pairs? r).isSome = true ↔ ∀ m ∈ r, isPlainKey m.1 = true ∧ isInline m.2 = true := by
  induction r with
  | nil => simp [Written.pairs?]
  | cons m r ih =>
    obtain ⟨key, v⟩ := m
    rw [List.forall_mem_cons, ← ih]
    cases hk : isPlainKey key <;> cases hv : isInline v <;> cases hp : Written.pairs? r <;>
      simp [Written.pairs?, hk, hv, hp]

/-- What holds of a value and of what recovers it holds of all fields of both records. -/
theorem forall_mem_iff (h : Alike o o') {P : String → Json → Prop}
    (hP : ∀ {key : String} {x y : Json}, x.isTame = true → Json.Recovers x y → (P key y ↔ P key x)) :
    (∀ m ∈ o', P m.1 m.2) ↔ ∀ m ∈ o, P m.1 m.2 := by
  constructor
  · intro hall m hm
    obtain ⟨y, hy, ht, hr⟩ := h.exists_of_mem hm
    exact (hP ht hr).1 (hall _ hy)
  · intro hall m hm
    obtain ⟨x, hx, ht, hr⟩ := h.exists_of_mem' hm
    exact (hP ht hr).2 (hall _ hx)

/-- Whether all fields fit on a line does not depend on their order. -/
theorem isSome_pairs? (h : Alike o o') : (Written.pairs? o').isSome = (Written.pairs? o).isSome := by
  rw [Bool.eq_iff_iff, isSome_pairs?_iff, isSome_pairs?_iff]
  exact h.forall_mem_iff (P := fun key x => isPlainKey key = true ∧ isInline x = true) fun ht hr => by
    rw [isInline_of_recovers ht hr]

end Alike

end Worldbook
