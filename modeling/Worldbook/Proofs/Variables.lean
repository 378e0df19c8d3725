import Mathlib.Data.List.Perm.Basic
import Worldbook.Proofs.Counters
import Worldbook.Proofs.Records

/-!
# Order of variables

The order of variables holds each of them once, and each time the first that depends on none of
those still to come. Variables that stand in order stay where they are.
-/

namespace Worldbook.Record

/-! ## Members in another order -/

def arranged (o : Record) (keys : List String) : Record :=
  keys.filterMap fun key => (o.get? key).map (Prod.mk key)

variable {o : Record} {key : String}

theorem arranged_of_some {x : Json} (h : o.get? key = some x) (keys : List String) :
    o.arranged (key :: keys) = (key, x) :: o.arranged keys := by
  rw [arranged, List.filterMap_cons, h]; rfl

theorem arranged_of_none (h : o.get? key = none) (keys : List String) :
    o.arranged (key :: keys) = o.arranged keys := by
  rw [arranged, List.filterMap_cons, h]; rfl

theorem exists_of_mem_keys (h : key ∈ o.keys) : ∃ x, o.get? key = some x :=
  Option.isSome_iff_exists.1 (has_iff.2 h)

theorem keys_arranged {keys : List String} (h : ∀ key ∈ keys, key ∈ o.keys) :
    (o.arranged keys).keys = keys := by
  induction keys with
  | nil => rfl
  | cons key keys ih =>
    obtain ⟨x, hx⟩ := exists_of_mem_keys (h key (List.mem_cons_self ..))
    rw [arranged_of_some hx, keys_cons, ih fun k hk => h k (List.mem_cons_of_mem _ hk)]

theorem get?_arranged (keys : List String) (key : String) :
    (o.arranged keys).get? key = if key ∈ keys then o.get? key else none := by
  induction keys with
  | nil => rfl
  | cons k keys ih =>
    cases h : o.get? k with
    | none =>
      rw [arranged_of_none h, ih]
      by_cases hk : key = k
      · subst hk; simp [h]
      · simp [hk]
    | some x =>
      rw [arranged_of_some h, get?_cons, ih]
      by_cases hk : key = k
      · subst hk; simp [h]
      · simp [hk, Ne.symm hk]

theorem get?_arranged_of_perm {keys : List String} (h : keys.Perm o.keys) (key : String) :
    (o.arranged keys).get? key = o.get? key := by
  rw [get?_arranged]
  split
  · rfl
  · next hk => exact (get?_eq_none_iff.2 fun hm => hk (h.mem_iff.2 hm)).symm

end Worldbook.Record

namespace Worldbook.Variables

/-! ## Every variable once -/

theorem map_getD_range (keys : List String) : (List.range keys.length).map (keys.getD · "") = keys :=
  List.ext_getElem (by simp) fun i _ hi => by simp [hi]

theorem order?_eq_some (vars : Record) : order? vars = some (order vars) := by
  obtain ⟨front, rest, horder, -⟩ := exists_drains vars
  rw [order, horder]
  rfl

theorem order_perm (vars : Record) : (order vars).Perm vars.keys := by
  obtain ⟨front, rest, horder, hd⟩ := exists_drains vars
  have hlength : vars.keys.length = vars.length := List.length_map ..
  rw [order, horder, Option.getD_some]
  refine (hd.perm.map _).trans (.of_eq ?_)
  rw [← hlength, map_getD_range]

/-! ## Mentions -/

theorem mem_mentionedMembers {o : Record} {name : String} : name ∈ Json.mentionedMembers o ↔
    ∃ m ∈ o, name ∈ mentions m.1.toList ∨ name ∈ m.2.mentioned := by
  induction o with
  | nil => simp [Json.mentionedMembers]
  | cons m o ih =>
    obtain ⟨key, v⟩ := m
    simp [Json.mentionedMembers, ih, or_assoc]

/-- A value that is recovered mentions the same variables. -/
theorem mem_mentioned {x y : Json} (ht : x.isTame = true) (hr : Json.Recovers x y) (name : String) :
    name ∈ y.mentioned ↔ name ∈ x.mentioned := by
  induction x using Json.induction generalizing y with
  | str s => rw [Json.recovers_str.1 hr]
  | arr xs ih =>
    obtain ⟨ys, rfl, hrs⟩ := Json.recovers_arr.1 hr
    have hall := forall₂_and_left (Json.every_arr.1 ht).2 hrs
    rw [Json.mentioned, Json.mentioned]
    clear hr hrs ht
    induction hall with
    | nil => rfl
    | cons hxy _ ihs =>
      have hhead := ih _ (List.mem_cons_self ..) hxy.1 hxy.2
      have hrest := ihs fun v hv => ih v (List.mem_cons_of_mem _ hv)
      rw [Json.mentionedItems, Json.mentionedItems, List.mem_append, List.mem_append]
      exact or_congr hhead hrest
  | obj o ih =>
    obtain ⟨o', rfl⟩ := Json.recovers_obj_exists hr
    have ha := alike_of_recovers ht hr
    rw [Json.mentioned, Json.mentioned, mem_mentionedMembers, mem_mentionedMembers]
    constructor
    · rintro ⟨m, hm, h⟩
      obtain ⟨x, hx, htx, hrx⟩ := ha.exists_of_mem' hm
      exact ⟨(m.1, x), hx, h.imp_right (ih _ hx htx hrx).1⟩
    · rintro ⟨m, hm, h⟩
      obtain ⟨y, hy, htx, hrx⟩ := ha.exists_of_mem hm
      exact ⟨(m.1, y), hy, h.imp_right (ih _ hm htx hrx).2⟩
  | _ => cases y <;> first | rfl | cases hr

/-! ## Dependencies -/

/-- No two variables have the same name apart from a `$` in front of it. -/
def DistinctBases (vars : Record) : Prop := (vars.keys.map Scope.baseOf).Nodup

instance (vars : Record) : Decidable (DistinctBases vars) := inferInstanceAs (Decidable (List.Nodup _))

/-- The value of the first variable mentions the second, another one. -/
def DependsOn (vars : Record) (v w : String) : Prop :=
  w ≠ v ∧ w ∈ vars.keys ∧ ∃ value, vars.get? v = some value ∧ Scope.baseOf w ∈ value.references

instance (vars : Record) (v w : String) : Decidable (DependsOn vars v w) :=
  inferInstanceAs (Decidable (_ ∧ _ ∧ ∃ value, value ∈ vars.get? v ∧ _))

theorem DistinctBases.injOn {vars : Record} (h : DistinctBases vars) {v w : String} (hv : v ∈ vars.keys)
    (hw : w ∈ vars.keys) (he : Scope.baseOf v = Scope.baseOf w) : v = w :=
  List.inj_on_of_nodup_map h hv hw he

theorem DistinctBases.nodup {vars : Record} (h : DistinctBases vars) : vars.keys.Nodup :=
  List.Nodup.of_map _ h

theorem DistinctBases.of_perm {vars vars' : Record} (h : DistinctBases vars)
    (hp : vars'.keys.Perm vars.keys) : DistinctBases vars' := (hp.map Scope.baseOf).nodup_iff.2 h

theorem distinctBases_of_hasSigil {vars : Record} (hn : vars.keys.Nodup)
    (hs : ∀ key ∈ vars.keys, Scope.hasSigil key = true) : DistinctBases vars := by
  refine hn.map_on fun v hv w hw he => ?_
  rw [← CompileM.referenceTo_baseOf (hs v hv), he, CompileM.referenceTo_baseOf (hs w hw)]

theorem DistinctBases.place_inj {vars : Record} (h : DistinctBases vars) {i k : Nat}
    {m n : String × Json} (hi : vars[i]? = some m) (hk : vars[k]? = some n)
    (he : Scope.baseOf m.1 = Scope.baseOf n.1) : i = k := by
  have hbase : ∀ {j : Nat} {m : String × Json}, vars[j]? = some m →
      (vars.keys.map Scope.baseOf)[j]? = some (Scope.baseOf m.1) := by
    intro j m hj
    simp [Record.keys, hj]
  have hlt := (List.getElem?_eq_some_iff.1 (hbase hi)).1
  exact (List.getElem?_inj hlt h).1 (by rw [hbase hi, hbase hk, he])

theorem place?_eq_some {vars : Record} (h : DistinctBases vars) {i : Nat} {m : String × Json}
    (hm : vars[i]? = some m) {name : String} : place? vars name = some i ↔ Scope.baseOf m.1 = name := by
  rw [place?, Option.map_eq_some_iff]
  constructor
  · rintro ⟨⟨n, k⟩, hn, rfl⟩
    have hk := List.mk_mem_zipIdx_iff_getElem?.1 (List.mem_reverse.1 (List.mem_of_find?_eq_some hn))
    obtain rfl : n = m := Option.some.inj (hk.symm.trans hm)
    simpa using List.find?_some hn
  · rintro rfl
    have hsome : (vars.zipIdx.reverse.find? fun n => Scope.baseOf n.1.1 == Scope.baseOf m.1).isSome =
      true := by
      rw [List.find?_isSome]
      exact ⟨(m, i), List.mem_reverse.2 (List.mk_mem_zipIdx_iff_getElem?.2 hm), by simp⟩
    obtain ⟨⟨n, k⟩, hn⟩ := Option.isSome_iff_exists.1 hsome
    have hk := List.mk_mem_zipIdx_iff_getElem?.1 (List.mem_reverse.1 (List.mem_of_find?_eq_some hn))
    exact ⟨_, hn, h.place_inj hk hm (by simpa using List.find?_some hn)⟩

theorem mem_mentionedAt {vars : Record} (h : DistinctBases vars) {i d : Nat} {m n : String × Json}
    (hi : vars[i]? = some m) (hd : vars[d]? = some n) :
    d ∈ mentionedAt vars i ↔ DependsOn vars m.1 n.1 := by
  have hne : n.1 ≠ m.1 ↔ d ≠ i := by
    refine not_congr ⟨fun he => h.place_inj hd hi (by rw [he]), ?_⟩
    rintro rfl
    rw [Option.some.inj (hi.symm.trans hd)]
  have hmem : n.1 ∈ vars.keys := List.mem_map_of_mem (List.mem_of_getElem? hd)
  rw [mentionedAt, hi, DependsOn, hne, and_iff_right hmem]
  simp only [mentionedPlaces]
  cases vars.get? m.1 with
  | none => simp
  | some v => simp [place?_eq_some h hd, and_comm]

/-- Where names are distinct, the order is that of taking the first ready variable each time. -/
theorem drains_order {vars : Record} (h : DistinctBases vars) :
    ∃ front rest, order vars = front ++ rest ∧ Drains (DependsOn vars) vars.keys front rest := by
  obtain ⟨front, rest, horder, hd⟩ := exists_drains vars
  have hlength : vars.keys.length = vars.length := List.length_map ..
  have hget : ∀ i ∈ List.range vars.length, ∃ m, vars[i]? = some m ∧ vars.keys.getD i "" = m.1 := by
    intro i hi
    have hlt := List.mem_range.1 hi
    exact ⟨vars[i], List.getElem?_eq_getElem hlt, by simp [Record.keys, hlt]⟩
  have hmap : Drains (DependsOn vars) _ _ _ := hd.map (f := (vars.keys.getD · "")) fun i hi d hd => by
    obtain ⟨m, hm, hkey⟩ := hget i hi
    obtain ⟨n, hn, hkey'⟩ := hget d hd
    rw [hkey, hkey', mem_mentionedAt h hm hn]
  rw [← hlength, map_getD_range] at hmap
  exact ⟨_, _, by rw [order, horder, Option.getD_some, List.map_append], hmap⟩

/-- Variables that are declared in the order of others, with the same dependencies, are in order. -/
theorem order_eq_of_keys {vars vars' : Record} (h : DistinctBases vars)
    (hkeys : vars'.keys = order vars) (hd : ∀ v w, DependsOn vars' v w ↔ DependsOn vars v w) :
    order vars' = order vars := by
  have hperm : vars'.keys.Perm vars.keys := hkeys ▸ order_perm vars
  have hsame : DependsOn vars' = DependsOn vars := by
    funext v w
    exact propext (hd v w)
  obtain ⟨front, rest, horder, hdrains⟩ := drains_order h
  obtain ⟨front', rest', horder', hdrains'⟩ := drains_order (h.of_perm hperm)
  rw [hkeys, hsame, horder] at hdrains'
  obtain ⟨rfl, rfl⟩ := hdrains'.unique hdrains.again
  rw [horder', horder]

/-- A record of variables that is in the order of another, and recovers it, is in order. -/
theorem order_eq_of_alike {vars vars' : Record} (h : Alike vars vars')
    (hs : ∀ key ∈ vars.keys, Scope.hasSigil key = true) (hkeys : vars'.keys = order vars) :
    order vars' = order vars := by
  refine order_eq_of_keys (distinctBases_of_hasSigil h.nodup hs) hkeys fun v w => ?_
  rw [DependsOn, DependsOn, h.mem_keys]
  refine and_congr_right fun _ => and_congr_right fun _ => ?_
  rcases h.cases_get? v with ⟨hx, hy⟩ | ⟨x, y, hx, hy, ht, hr⟩
  · rw [hx, hy]
  · simp only [hx, hy, Option.some.injEq, exists_eq_left', Json.references, List.mem_eraseDups,
      mem_mentioned ht hr]

end Worldbook.Variables
