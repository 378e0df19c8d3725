import Mathlib.Data.List.Nodup
import Worldbook.Proofs.Doubles
import Worldbook.Written.Literal

/-!
# What a value becomes when it is written and read back

A whole number of more than 64 bits with sign comes back as the nearest double, members may come
back in another order, and an empty list of limits may be lost. `Recovers` allows just that.
Where numbers are narrow and no list of limits is empty it is equality of meaning.
-/

namespace Worldbook

/-! ## Records -/

namespace Record

def keys (r : Record) : List String := r.map Prod.fst

@[simp] theorem keys_nil : keys [] = [] := rfl

@[simp] theorem keys_cons (m : String × Json) (r : Record) : keys (m :: r) = m.1 :: keys r := rfl

@[simp] theorem keys_append (r s : Record) : keys (r ++ s) = keys r ++ keys s := List.map_append

@[simp] theorem get?_nil (key : String) : get? [] key = none := rfl

theorem get?_cons (k : String) (v : Json) (r : Record) (key : String) :
    get? ((k, v) :: r) key = if k = key then some v else get? r key := by
  rw [get?, List.lookup_cons]
  by_cases h : k = key
  · rw [if_pos h, h, beq_self_eq_true]
  · rw [if_neg h, beq_eq_false_iff_ne.2 (Ne.symm h)]; rfl

theorem get?_append (r s : Record) (key : String) :
    get? (r ++ s) key = (get? r key).or (get? s key) := List.lookup_append

theorem get?_eq_none_iff {r : Record} {key : String} : r.get? key = none ↔ key ∉ r.keys := by
  simp only [get?, List.lookup_eq_none_iff, keys, List.mem_map, not_exists, not_and,
    bne_iff_ne, ne_eq]
  exact ⟨fun h m hm he => h m hm he.symm, fun h m hm he => h m hm he.symm⟩

theorem has_iff {r : Record} {key : String} : r.has key = true ↔ key ∈ r.keys := by
  rw [has, Option.isSome_iff_ne_none, ne_eq, get?_eq_none_iff, not_not]

theorem has_eq_false {r : Record} {key : String} : r.has key = false ↔ key ∉ r.keys := by
  rw [← Bool.not_eq_true, has_iff]

theorem mem_of_get? {r : Record} {key : String} {v : Json} (h : r.get? key = some v) :
    (key, v) ∈ r := by
  obtain ⟨l, l', rfl, _⟩ := List.lookup_eq_some_iff.1 h
  simp

theorem get?_of_mem {r : Record} (hr : r.keys.Nodup) {key : String} {v : Json} (h : (key, v) ∈ r) :
    r.get? key = some v := by
  induction r with
  | nil => cases h
  | cons m r ih =>
    obtain ⟨k, x⟩ := m
    rw [keys_cons, List.nodup_cons] at hr
    rw [get?_cons]
    rcases List.mem_cons.1 h with h | h
    · cases h; rw [if_pos rfl]
    · have hk : k ≠ key := by
        rintro rfl
        exact hr.1 (List.mem_map.2 ⟨_, h, rfl⟩)
      rw [if_neg hk, ih hr.2 h]

theorem mem_keys_of_get? {r : Record} {key : String} {v : Json} (h : r.get? key = some v) :
    key ∈ r.keys := List.mem_map_of_mem (f := Prod.fst) (mem_of_get? h)

theorem set_of_not_mem {r : Record} {key : String} (h : key ∉ r.keys) (v : Json) :
    r.set key v = r ++ [(key, v)] := by
  induction r with
  | nil => rfl
  | cons m r ih =>
    obtain ⟨k, x⟩ := m
    rw [keys_cons, List.mem_cons, not_or] at h
    simp only [set, if_neg (Ne.symm h.1), ih h.2, List.cons_append]

theorem get?_set (r : Record) (k : String) (v : Json) (key : String) :
    (r.set k v).get? key = if k = key then some v else r.get? key := by
  induction r with
  | nil => rw [set, get?_cons]
  | cons m r ih =>
    obtain ⟨k', x⟩ := m
    rw [set]
    split
    · next hk =>
      subst hk
      rw [get?_cons, get?_cons]
      split <;> rfl
    · next hk =>
      rw [get?_cons, get?_cons, ih]
      split
      · next hkey => rw [if_neg (by rintro rfl; exact hk hkey)]
      · rfl

theorem mem_keys_set {r : Record} {k : String} {v : Json} {key : String} (h : key ∈ r.keys) :
    key ∈ (r.set k v).keys := by
  rw [← has_iff, has] at h ⊢
  rw [get?_set]
  split
  · rfl
  · exact h

theorem set_append_last {r : Record} {key : String} (h : key ∉ r.keys) (v w : Json) :
    set (r ++ [(key, v)]) key w = r ++ [(key, w)] := by
  induction r with
  | nil => simp [set]
  | cons m r ih =>
    obtain ⟨k, x⟩ := m
    rw [keys_cons, List.mem_cons, not_or] at h
    simp only [List.cons_append, set, if_neg (Ne.symm h.1), ih h.2]

theorem get?_append_last {r : Record} {key : String} (h : key ∉ r.keys) (v : Json) :
    get? (r ++ [(key, v)]) key = some v := by
  rw [get?_append, get?_eq_none_iff.2 h, get?_cons, if_pos rfl]; rfl

theorem setAll_of_nodup (r s : Record) (h : (r ++ s).keys.Nodup) : setAll r s = r ++ s := by
  induction s generalizing r with
  | nil => simp [setAll]
  | cons m s ih =>
    have hm : m.1 ∉ r.keys := by
      rw [keys_append, keys_cons] at h
      exact fun hc => (List.disjoint_of_nodup_append h) hc (List.mem_cons_self ..)
    have hstep : setAll r (m :: s) = setAll (r.set m.1 m.2) s := rfl
    rw [hstep, set_of_not_mem hm, ih _ (by simpa using h)]
    simp

theorem ofPairs_of_nodup {r : Record} (h : r.keys.Nodup) : ofPairs r = r := by
  simpa [ofPairs] using setAll_of_nodup [] r (by simpa using h)

theorem hasOnly_iff {r : Record} {allowed : List String} :
    r.hasOnly allowed = true ↔ ∀ key ∈ r.keys, key ∈ allowed := by
  simp only [hasOnly, List.all_eq_true, List.contains_iff_mem, keys, List.mem_map]
  exact ⟨fun h key ⟨m, hm, he⟩ => he ▸ h m hm, fun h m hm => h _ ⟨m, hm, rfl⟩⟩

end Record

/-! ## Kinds of values -/

namespace Json

theorem string?_eq_some {j : Json} {s : String} : j.string? = some s ↔ j = .str s := by
  cases j <;> simp [string?]

theorem array?_eq_some {j : Json} {items : List Json} : j.array? = some items ↔ j = .arr items := by
  cases j <;> simp [array?]

theorem object?_eq_some {j : Json} {members : Record} :
    j.object? = some members ↔ j = .obj members := by
  cases j <;> simp [object?]

theorem number?_eq_some {j : Json} {n : Number} : j.number? = some n ↔ j = .num n := by
  cases j <;> simp [number?]

/-! ## Properties of every value inside a value -/

/-- Induction over the items of arrays and the members of objects. -/
theorem induction {P : Json → Prop} (null : P .null) (bool : ∀ b, P (.bool b)) (num : ∀ n, P (.num n))
    (str : ∀ s, P (.str s)) (arr : ∀ items : List Json, (∀ v ∈ items, P v) → P (.arr items))
    (obj : ∀ members : Record, (∀ m ∈ members, P m.2) → P (.obj members)) : ∀ v, P v
  | .null => null
  | .bool b => bool b
  | .num n => num n
  | .str s => str s
  | .arr items => arr items fun v _ => induction null bool num str arr obj v
  | .obj members => obj members fun m _ => induction null bool num str arr obj m.2
termination_by v => sizeOf v
decreasing_by
  · have := List.sizeOf_lt_of_mem ‹_ ∈ items›
    simp only [Json.arr.sizeOf_spec]; omega
  · have := List.sizeOf_lt_of_mem ‹_ ∈ members›
    obtain ⟨key, x⟩ := m
    simp only [Json.obj.sizeOf_spec, Prod.mk.sizeOf_spec] at this ⊢; omega

mutual

def every (p : Json → Bool) : Json → Bool
  | .arr items => p (.arr items) && everyItem p items
  | .obj members => p (.obj members) && everyMember p members
  | v => p v

def everyItem (p : Json → Bool) : List Json → Bool
  | [] => true
  | v :: rest => every p v && everyItem p rest

def everyMember (p : Json → Bool) : List (String × Json) → Bool
  | [] => true
  | (_, v) :: rest => every p v && everyMember p rest

end

theorem everyItem_iff {p : Json → Bool} {items : List Json} :
    everyItem p items = true ↔ ∀ v ∈ items, every p v = true := by
  induction items with
  | nil => simp [everyItem]
  | cons v rest ih => simp [everyItem, ih]

theorem everyMember_iff {p : Json → Bool} {members : Record} :
    everyMember p members = true ↔ ∀ m ∈ members, every p m.2 = true := by
  induction members with
  | nil => simp [everyMember]
  | cons m rest ih =>
    simp only [everyMember, Bool.and_eq_true, ih, List.mem_cons, forall_eq_or_imp]

theorem every_arr {p : Json → Bool} {items : List Json} : every p (.arr items) = true ↔
    p (.arr items) = true ∧ ∀ v ∈ items, every p v = true := by
  rw [every, Bool.and_eq_true, everyItem_iff]

theorem every_obj {p : Json → Bool} {members : Record} : every p (.obj members) = true ↔
    p (.obj members) = true ∧ ∀ m ∈ members, every p m.2 = true := by
  rw [every, Bool.and_eq_true, everyMember_iff]

theorem every_self {p : Json → Bool} {v : Json} (h : every p v = true) : p v = true := by
  cases v with
  | arr items => exact (every_arr.1 h).1
  | obj members => exact (every_obj.1 h).1
  | _ => exact h

theorem every_and {p q : Json → Bool} (v : Json) :
    every (fun x => p x && q x) v = true ↔ every p v = true ∧ every q v = true := by
  induction v using induction with
  | arr items ih =>
    simp only [every_arr, Bool.and_eq_true]
    constructor
    · exact fun ⟨h, hi⟩ => ⟨⟨h.1, fun v hv => ((ih v hv).1 (hi v hv)).1⟩, h.2,
        fun v hv => ((ih v hv).1 (hi v hv)).2⟩
    · exact fun ⟨⟨h, hi⟩, h', hi'⟩ => ⟨⟨h, h'⟩, fun v hv => (ih v hv).2 ⟨hi v hv, hi' v hv⟩⟩
  | obj members ih =>
    simp only [every_obj, Bool.and_eq_true]
    constructor
    · exact fun ⟨h, hi⟩ => ⟨⟨h.1, fun m hm => ((ih m hm).1 (hi m hm)).1⟩, h.2,
        fun m hm => ((ih m hm).1 (hi m hm)).2⟩
    · exact fun ⟨⟨h, hi⟩, h', hi'⟩ => ⟨⟨h, h'⟩, fun m hm => (ih m hm).2 ⟨hi m hm, hi' m hm⟩⟩
  | _ => simp [every]

/-- What JSON can hold at one place: keys once each, numbers of 64 bits, finite doubles. -/
def isHeld : Json → Bool
  | .num (.int i) => -(2 ^ 63) ≤ i && i < 2 ^ 64
  | .num (.float x) => x.isFinite
  | .obj members => decide (Record.keys members).Nodup
  | _ => true

def isValid (v : Json) : Bool := v.every isHeld

def isNarrowNumber : Json → Bool
  | .num (.int i) => Number.inInt64 i
  | _ => true

def isLimited : Json → Bool
  | .obj members =>
    match Record.get? members "saturationLimits" with
    | some (.arr []) => false
    | _ => true
  | _ => true

def isNarrow (v : Json) : Bool := v.every isNarrowNumber

def hasNoEmptyLimits (v : Json) : Bool := v.every isLimited

/-- The values that come back with all their meaning. -/
def isTame (v : Json) : Bool := v.every fun x => isHeld x && (isNarrowNumber x && isLimited x)

theorem isTame_iff (v : Json) : v.isTame = true ↔
    v.isValid = true ∧ v.isNarrow = true ∧ v.hasNoEmptyLimits = true := by
  rw [isTame, every_and, every_and]; rfl

theorem isValid_of_isTame {v : Json} (h : v.isTame = true) : v.isValid = true := ((isTame_iff v).1 h).1

end Json

/-! ## Numbers -/

def Number.reread : Number → Number
  | .int i => if inInt64 i then .int i else .float (.ofDecimal (decide (i < 0)) i.natAbs 0)
  | .float x => .float x

/-! ## Recovery -/

namespace Json

mutual

/-- The second value is what the first may become when it is written and read back. -/
def Recovers : Json → Json → Prop
  | .null, .null => True
  | .bool a, .bool b => a = b
  | .num m, .num n => n.same m.reread = true
  | .str s, .str t => s = t
  | .arr xs, .arr ys => RecoversItems xs ys
  | .obj xs, .obj ys =>
    (Record.keys ys).Nodup ∧ (∀ key ∈ Record.keys ys, key ∈ Record.keys xs) ∧ RecoversMembers xs ys
  | _, _ => False

def RecoversItems : List Json → List Json → Prop
  | [], [] => True
  | x :: xs, y :: ys => Recovers x y ∧ RecoversItems xs ys
  | _, _ => False

/-- Every member of the first comes back in the second; only an empty list of limits may be lost. -/
def RecoversMembers : List (String × Json) → List (String × Json) → Prop
  | [], _ => True
  | (key, x) :: rest, ys =>
    (match Record.get? ys key with
      | some y => Recovers x y
      | none => key = "saturationLimits" ∧ x = .arr []) ∧ RecoversMembers rest ys

end

theorem recoversItems_iff {xs ys : List Json} : RecoversItems xs ys ↔ List.Forall₂ Recovers xs ys := by
  induction xs generalizing ys with
  | nil => cases ys <;> simp [RecoversItems]
  | cons x xs ih => cases ys <;> simp [RecoversItems, ih]

theorem recoversMembers_iff {xs ys : Record} : RecoversMembers xs ys ↔
    ∀ m ∈ xs, (∃ y, ys.get? m.1 = some y ∧ Recovers m.2 y) ∨
      (ys.get? m.1 = none ∧ m.1 = "saturationLimits" ∧ m.2 = .arr []) := by
  induction xs with
  | nil => simp [RecoversMembers]
  | cons m xs ih =>
    obtain ⟨key, x⟩ := m
    simp only [RecoversMembers, ih, List.mem_cons, forall_eq_or_imp]
    refine and_congr_left fun _ => ?_
    cases Record.get? ys key <;> simp

/-- A record recovers one with the same keys whose values it recovers. -/
theorem recovers_of_get? {xs ys : Record} (hx : xs.keys.Nodup) (hy : ys.keys.Nodup)
    (h : ∀ key, Option.Rel Recovers (xs.get? key) (ys.get? key)) : Recovers (.obj xs) (.obj ys) := by
  refine ⟨hy, fun key hk => ?_, recoversMembers_iff.2 fun m hm => ?_⟩
  · by_contra hn
    have hrel := h key
    rw [Record.get?_eq_none_iff.2 hn] at hrel
    cases hq : ys.get? key with
    | none => exact Record.get?_eq_none_iff.1 hq hk
    | some y => rw [hq] at hrel; cases hrel
  · have hrel := h m.1
    rw [Record.get?_of_mem hx hm] at hrel
    cases hq : ys.get? m.1 with
    | none => rw [hq] at hrel; cases hrel
    | some y => rw [hq] at hrel; cases hrel with | some hr => exact .inl ⟨y, rfl, hr⟩

theorem recovers_str {s : String} {y : Json} : Recovers (.str s) y ↔ y = .str s := by
  cases y <;> simp [Recovers, eq_comm]

theorem recovers_arr {xs : List Json} {y : Json} :
    Recovers (.arr xs) y ↔ ∃ ys, y = .arr ys ∧ List.Forall₂ Recovers xs ys := by
  cases y <;> simp [Recovers, recoversItems_iff]

theorem reread_of_narrow {n : Number} (h : isNarrowNumber (.num n) = true) : n.reread = n := by
  cases n with
  | int i => exact if_pos h
  | float x => rfl

theorem sameItems_iff {xs ys : List Json} :
    sameItems xs ys = true ↔ List.Forall₂ (fun x y => same x y = true) xs ys := by
  induction xs generalizing ys with
  | nil => cases ys <;> simp [sameItems]
  | cons x xs ih => cases ys <;> simp [sameItems, ih]

theorem sameMembers_iff {xs ys : Record} : sameMembers xs ys = true ↔
    ∀ m ∈ xs, ∃ y, ys.get? m.1 = some y ∧ same m.2 y = true := by
  induction xs with
  | nil => simp [sameMembers]
  | cons m xs ih =>
    obtain ⟨key, x⟩ := m
    simp only [sameMembers, Bool.and_eq_true, ih, List.mem_cons, forall_eq_or_imp]
    refine and_congr_left fun _ => ?_
    cases Record.get? ys key <;> simp

/-- Records with the same keys, each key once, have the same length. -/
theorem length_eq_of_keys {xs ys : Record} (hx : xs.keys.Nodup) (hy : ys.keys.Nodup)
    (h : ∀ key, key ∈ ys.keys ↔ key ∈ xs.keys) : ys.length = xs.length := by
  have := ((List.perm_ext_iff_of_nodup hy hx).2 h).length_eq
  simpa [Record.keys] using this

theorem nodup_of_isValid {members : Record} (h : (Json.obj members).isValid = true) :
    members.keys.Nodup := of_decide_eq_true (every_self h)

/-- In tame values nothing is lost: each member comes back. -/
theorem get?_of_recovers {xs ys : Record} (ht : (Json.obj xs).isTame = true)
    (h : Recovers (.obj xs) (.obj ys)) {m : String × Json} (hm : m ∈ xs) :
    ∃ y, ys.get? m.1 = some y ∧ Recovers m.2 y := by
  rcases recoversMembers_iff.1 h.2.2 m hm with h | ⟨_, hk, hv⟩
  · exact h
  · have hl : isLimited (.obj xs) = true := every_self ((isTame_iff _).1 ht).2.2
    have hx := nodup_of_isValid (isValid_of_isTame ht)
    have hget : xs.get? "saturationLimits" = some (.arr []) := by
      rw [← hk, ← hv]; exact Record.get?_of_mem hx hm
    simp [isLimited, hget] at hl

/-- Of a tame value nothing is lost, and nothing is new. -/
theorem mem_keys_of_recovers {xs ys : Record} (ht : (Json.obj xs).isTame = true)
    (h : Recovers (.obj xs) (.obj ys)) (key : String) : key ∈ ys.keys ↔ key ∈ xs.keys := by
  refine ⟨h.2.1 key, fun hk => ?_⟩
  obtain ⟨m, hm, rfl⟩ := List.mem_map.1 hk
  obtain ⟨y, hy, -⟩ := get?_of_recovers ht h hm
  exact Record.mem_keys_of_get? hy

/-- Where numbers are narrow and no list of limits is empty, the meaning is kept. -/
theorem same_of_recovers {x y : Json} (ht : x.isTame = true) (h : Recovers x y) : y.same x = true := by
  induction x using induction generalizing y with
  | null => cases y <;> simp_all [Recovers, same]
  | bool b => cases y <;> simp_all [Recovers, same]
  | str s => rw [recovers_str.1 h]; simp [same]
  | num m =>
    have hn : isNarrowNumber (.num m) = true := every_self ((isTame_iff _).1 ht).2.1
    cases y with
    | num n =>
      simp only [Recovers, reread_of_narrow hn] at h
      simpa only [same] using h
    | _ => cases h
  | arr xs ih =>
    obtain ⟨ys, rfl, hr⟩ := recovers_arr.1 h
    rw [isTame, every_arr] at ht
    rw [same, sameItems_iff]
    -- This is about the whole list, which the induction takes apart.
    clear h
    induction hr with
    | nil => exact .nil
    | cons hxy _ ihs =>
      have hhead := ih _ (List.mem_cons_self ..) (ht.2 _ (List.mem_cons_self ..)) hxy
      refine .cons hhead (ihs (fun v hv => ih v (List.mem_cons_of_mem _ hv)) ⟨?_, ?_⟩)
      · rfl
      · exact fun v hv => ht.2 v (List.mem_cons_of_mem _ hv)
  | obj xs ih =>
    cases y with
    | obj ys =>
      have hx := nodup_of_isValid (isValid_of_isTame ht)
      have hall := (every_obj.1 ht).2
      have hkeys := mem_keys_of_recovers ht h
      rw [same, Bool.and_eq_true, beq_iff_eq, sameMembers_iff]
      refine ⟨length_eq_of_keys hx h.1 hkeys, fun m hm => ?_⟩
      obtain ⟨n, hn, hkey⟩ := List.mem_map.1 ((hkeys m.1).1 (List.mem_map_of_mem (f := Prod.fst) hm))
      obtain ⟨y, hy, hr⟩ := get?_of_recovers ht h hn
      rw [hkey, Record.get?_of_mem h.1 hm, Option.some.injEq] at hy
      refine ⟨n.2, by rw [← hkey]; exact Record.get?_of_mem hx hn, ?_⟩
      rw [hy]
      exact ih n hn (hall n hn) hr
    | _ => cases h

end Json

end Worldbook
