import Mathlib.Data.List.Nodup
import Worldbook.Proofs.Doubles
import Worldbook.Validation

/-!
# What validation reports

Every repeated id and every undeclared name is reported where it stands, once for each time it
stands there, and nothing else is. Repeated ids come first.
-/

namespace Worldbook

namespace Validation

/-! ## What is wrong with a configuration -/

def idAt (items : List Json) (field : String) (i : Nat) : Option String :=
  items[i]?.bind (·.text? field)

/-- Item `index` of a keyed collection that is there as a list has the id of an item before it. -/
def Repeats (config : Json) (key : String) (index : Nat) (field id : String) : Prop :=
  ∃ c ∈ Collection.all, c.kind = .keyed ∧ c.key = key ∧ c.idField = some field ∧
    ∃ items, config.get? key = some (.arr items) ∧ idAt items field index = some id ∧
      ∃ j < index, idAt items field j = some id

/-- The value of a field of item `index` of a collection that is there as a list. -/
def fieldAt (config : Json) (key : String) (index : Nat) (field : String) : Option Json :=
  ((config.get? key).bind Json.array?).bind fun items => items[index]?.bind (·.get? field)

/-- How often a value names something: it is that string, or some of its items are. -/
def mentions (name : String) : Json → Nat
  | .str s => if s = name then 1 else 0
  | .arr items => items.countP (·.string? == some name)
  | _ => 0

/-- The collection is there as a list without this id, and the name is no variable. -/
def Undeclared (config : Json) (target name : String) : Prop :=
  name.toList.head? ≠ some '$' ∧ ∃ c ∈ Collection.all, c.key = target ∧
    ∃ field, c.idField = some field ∧
    ∃ items, config.get? target = some (.arr items) ∧ ∀ item ∈ items, item.text? field ≠ some name

/-! ## Repeated ids -/

theorem idAt_cons_zero (item : Json) (items : List Json) (field : String) :
    idAt (item :: items) field 0 = item.text? field := rfl

theorem idAt_cons_succ (item : Json) (items : List Json) (field : String) (i : Nat) :
    idAt (item :: items) field (i + 1) = idAt items field i := rfl

theorem mem_duplicates {key field : String} {issue : Issue} (index : Nat) (seen : List String)
    (items : List Json) : issue ∈ duplicates key field index seen items ↔
    ∃ i id, issue = .duplicateId key (index + i) field id ∧
      idAt items field i = some id ∧ (id ∈ seen ∨ ∃ j < i, idAt items field j = some id) := by
  induction items generalizing index seen with
  | nil => simp [duplicates, idAt]
  | cons item items ih =>
    rw [← Nat.or_exists_add_one]
    simp only [idAt_cons_zero, idAt_cons_succ, Nat.exists_lt_succ_left, Nat.not_lt_zero, false_and,
      exists_false, or_false, Nat.add_zero, ← Nat.add_assoc, Nat.add_right_comm index _ 1]
    unfold duplicates
    cases hid : item.text? field with
    | none => simp [ih]
    | some id =>
      by_cases hseen : id ∈ seen
      · simp only [List.contains_eq_mem, hseen, decide_true, if_true, List.mem_cons, ih,
          Option.some.injEq]
        grind
      · simp only [List.contains_eq_mem, hseen, decide_false, Bool.false_eq_true, if_false, ih,
          List.mem_cons, Option.some.injEq]
        grind

theorem toString_injective : Function.Injective fun n : Nat => toString n := by
  intro m n h
  have hdigits : Nat.toDigits 10 m = Nat.toDigits 10 n := String.ofList_injective h
  rw [← Numeral.natOfDigits_toDigits m, hdigits, Numeral.natOfDigits_toDigits]

theorem paths_duplicates (key field : String) (index : Nat) (seen : List String) (items : List Json) :
    ((duplicates key field index seen items).map Issue.path).Sublist
      ((List.range' index items.length).map fun i => [key, toString i, field]) := by
  induction items generalizing index seen with
  | nil => simp [duplicates]
  | cons item items ih =>
    rw [List.length_cons, List.range'_succ, List.map_cons]
    unfold duplicates
    cases item.text? field with
    | none => exact (ih _ _).cons _
    | some id =>
      by_cases hseen : seen.contains id = true
      · simp only [if_pos hseen, List.map_cons]
        exact (ih _ _).cons_cons _
      · simp only [if_neg hseen]
        exact (ih _ _).cons _

theorem nodup_paths_duplicates (key field : String) (items : List Json) :
    ((duplicates key field 0 [] items).map Issue.path).Nodup := by
  apply (paths_duplicates key field 0 [] items).nodup
  refine List.Nodup.map ?_ List.nodup_range'
  intro i j h
  simp only [List.cons.injEq, and_true, true_and] at h
  exact toString_injective h

theorem requiredId?_eq_some {c : Collection} {field : String} :
    c.requiredId? = some field ↔ c.kind = .keyed ∧ c.idField = some field := by
  unfold Collection.requiredId?
  by_cases h : c.kind = .keyed
  · simp [h]
  · simp [h]

theorem items?_eq_some {config : Record} {key : String} {items : List Json} :
    items? config key = some items ↔ (Json.obj config).get? key = some (.arr items) := by
  unfold items? Json.get?
  simp only [Json.object?, Option.bind_some]
  cases config.get? key with
  | none => simp
  | some v => cases v <;> simp [Json.array?]

theorem mem_duplicateIds {config : Record} {c : Collection} {issue : Issue} :
    issue ∈ duplicateIds config c ↔ ∃ i field id, issue = .duplicateId c.key i field id ∧
      c.kind = .keyed ∧
      c.idField = some field ∧ ∃ items, (Json.obj config).get? c.key = some (.arr items) ∧
        idAt items field i = some id ∧ ∃ j < i, idAt items field j = some id := by
  simp only [← items?_eq_some]
  unfold duplicateIds
  constructor
  · intro h
    split at h
    · next field items hfield hitems =>
      obtain ⟨hkind, hid⟩ := requiredId?_eq_some.1 hfield
      obtain ⟨i, id, rfl, hi, hj⟩ := (mem_duplicates 0 [] items).1 h
      simp only [List.not_mem_nil, false_or] at hj
      exact ⟨0 + i, field, id, rfl, hkind, hid, items, hitems, by simpa using hi, by simpa using hj⟩
    · cases h
  · intro ⟨i, field, id, hissue, hkind, hid, items, hitems, hi, hj⟩
    rw [requiredId?_eq_some.2 ⟨hkind, hid⟩, hitems]
    exact (mem_duplicates 0 [] items).2 ⟨i, id, by simpa using hissue, hi, .inr hj⟩

theorem head_path_duplicateIds {config : Record} {c : Collection} {issue : Issue}
    (h : issue ∈ duplicateIds config c) : issue.path.head? = some c.key := by
  obtain ⟨i, field, id, rfl, -⟩ := mem_duplicateIds.1 h
  rfl

theorem nodup_paths_duplicateIds (config : Record) :
    ((Collection.all.flatMap (duplicateIds config)).map Issue.path).Nodup := by
  rw [List.map_flatMap, List.nodup_flatMap]
  constructor
  · intro c _
    unfold duplicateIds
    split
    · exact nodup_paths_duplicates ..
    · exact List.nodup_nil
  · have hkeys : Collection.all.Pairwise fun c d => c.key ≠ d.key := by decide
    apply hkeys.imp
    intro c d hne path hc hd
    obtain ⟨issue, hissue, rfl⟩ := List.mem_map.1 hc
    obtain ⟨other, hother, heq⟩ := List.mem_map.1 hd
    apply hne
    have hhead := head_path_duplicateIds hissue
    rw [← heq, head_path_duplicateIds hother] at hhead
    exact (Option.some.inj hhead).symm

/-! ## Undeclared names -/

theorem count_names (name : String) (v : Json) : (names v).count name = mentions name v := by
  cases v with
  | str s =>
    by_cases h : s = name
    · simp [names, mentions, h]
    · simp [names, mentions, h]
  | arr items => exact List.count_filterMap
  | _ => rfl

abbrev issueOf (rule : ReferenceRule) (index : Nat) (name : String) : Issue :=
  .unknownReference rule.collection index rule.field name rule.target

theorem mem_unknownNames {rule : ReferenceRule} {known : List String} {index : Nat} {item : Json}
    {issue : Issue} : issue ∈ unknownNames rule known index item ↔ ∃ v name, item.get? rule.field =
      some v ∧ name ∈ names v ∧
      Scope.hasSigil name = false ∧ name ∉ known ∧ issue = issueOf rule index name := by
  unfold unknownNames
  cases item.get? rule.field with
  | none => simp
  | some v =>
    simp only [List.mem_map, List.mem_filter, Option.some.injEq, Bool.and_eq_true, Bool.not_eq_true',
      List.contains_eq_mem, decide_eq_false_iff_not]
    grind

theorem count_unknownNames {rule : ReferenceRule} {known : List String} {item v : Json} {name : String}
    (hv : item.get? rule.field = some v) (hname : Scope.hasSigil name = false) (hknown : name ∉ known)
    (index : Nat) : (unknownNames rule known index item).count (issueOf rule index name) =
      mentions name v := by
  have hinj : Function.Injective fun name => issueOf rule index name := by
    intro a b h
    simpa using h
  unfold unknownNames
  simp only [hv]
  rw [List.count_map_of_injective _ _ hinj, List.count_filter (by simp [hname, hknown]), count_names]

/-- Only the item of that number counts. -/
theorem count_zipIdx (f : Json → Nat → List Issue) {issue : Issue} {index : Nat}
    (hother : ∀ item j, issue ∈ f item j → j = index) (items : List Json) (start : Nat) {item : Json}
    (hitem : items[index - start]? = some item) (hle : start ≤ index) :
    ((items.zipIdx start).map fun (item, j) => f item j).flatten.count issue =
      (f item index).count issue := by
  induction items generalizing start with
  | nil => simp at hitem
  | cons first items ih =>
    rw [List.zipIdx_cons, List.map_cons, List.flatten_cons, List.count_append]
    by_cases hstart : start = index
    · subst hstart
      have htail : issue ∉ ((items.zipIdx (start + 1)).map fun (item, j) => f item j).flatten := by
        intro hmem
        obtain ⟨_, hlist, hissue⟩ := List.mem_flatten.1 hmem
        obtain ⟨⟨item, j⟩, hj, rfl⟩ := List.mem_map.1 hlist
        have hle := List.le_snd_of_mem_zipIdx hj
        rw [hother item j hissue] at hle
        exact absurd hle (by simp)
      rw [Nat.sub_self, List.getElem?_cons_zero, Option.some.injEq] at hitem
      rw [List.count_eq_zero_of_not_mem htail, Nat.add_zero, hitem]
    · have hhead : issue ∉ f first start := fun hmem => hstart (hother first start hmem)
      have hsub : index - start = index - (start + 1) + 1 := by omega
      rw [hsub, List.getElem?_cons_succ] at hitem
      rw [List.count_eq_zero_of_not_mem hhead, Nat.zero_add]
      exact ih (start + 1) hitem (by omega)

theorem fieldAt_eq_some {config : Record} {key field : String} {index : Nat} {v : Json} :
    fieldAt (.obj config) key index field = some v ↔
      ∃ items item, items? config key = some items ∧ items[index]? = some item ∧
      item.get? field = some v := by
  simp [fieldAt, items?, Json.get?, Json.object?, Option.bind_eq_some_iff]

theorem ofKey?_eq_some {c : Collection} {key : String} (h : Collection.ofKey? key = some c) :
    c ∈ Collection.all ∧ c.key = key := by
  unfold Collection.ofKey? at h
  exact ⟨List.mem_of_find?_eq_some h, by simpa using List.find?_some h⟩

theorem ids?_eq_some {config : Record} {key : String} {known : List String} :
    ids? config key = some known ↔ ∃ c field items, Collection.ofKey? key = some c ∧
      c.requiredId? = some field ∧
      items? config key = some items ∧ known = items.filterMap (·.text? field) := by
  unfold ids?
  simp only [Option.bind_eq_bind, Option.bind_eq_some_iff, Option.pure_def, Option.some.injEq]
  grind

theorem undeclared_iff {config : Record} {target name : String} :
    Undeclared (.obj config) target name ↔
      Scope.hasSigil name = false ∧ ∃ known, ids? config target = some known ∧ name ∉ known := by
  have hsigil : name.toList.head? ≠ some '$' ↔ Scope.hasSigil name = false := by simp [Scope.hasSigil]
  unfold Undeclared
  simp only [hsigil, ← items?_eq_some]
  apply and_congr_right
  intro _
  constructor
  · intro ⟨c, hc, hkey, field, hfield, items, hitems, hids⟩
    have hkeyed : ∀ c ∈ Collection.all, c.idField.isSome = true → c.kind = .keyed := by decide
    have hkeys : ∀ c ∈ Collection.all, Collection.ofKey? c.key = some c := by decide
    have hrequired := requiredId?_eq_some.2 ⟨hkeyed c hc (by rw [hfield]; rfl), hfield⟩
    refine ⟨_, ids?_eq_some.2 ⟨c, field, items, hkey ▸ hkeys c hc, hrequired, hitems, rfl⟩, ?_⟩
    intro hmem
    obtain ⟨item, hitem, hid⟩ := List.mem_filterMap.1 hmem
    exact hids item hitem hid
  · intro ⟨known, hknown, hname⟩
    obtain ⟨c, field, items, hc, hfield, hitems, rfl⟩ := ids?_eq_some.1 hknown
    obtain ⟨hmem, hkey⟩ := ofKey?_eq_some hc
    refine ⟨c, hmem, hkey, field, (requiredId?_eq_some.1 hfield).2, items, hitems, ?_⟩
    intro item hitem hid
    exact hname (List.mem_filterMap.2 ⟨item, hitem, hid⟩)

theorem mem_unknownReferences {config : Record} {rule : ReferenceRule} {issue : Issue} :
    issue ∈ unknownReferences config rule ↔
    ∃ index v name, fieldAt (.obj config) rule.collection index rule.field = some v ∧
      0 < mentions name v ∧ Undeclared (.obj config) rule.target name ∧
      issue = issueOf rule index name := by
  simp only [fieldAt_eq_some, undeclared_iff, ← count_names, List.count_pos_iff]
  unfold unknownReferences
  constructor
  · intro h
    split at h
    · next items known hitems hknown =>
      obtain ⟨_, hlist, hissue⟩ := List.mem_flatten.1 h
      obtain ⟨⟨item, index⟩, hindex, rfl⟩ := List.mem_map.1 hlist
      obtain ⟨v, name, hv, hname, hsigil, hnot, rfl⟩ := mem_unknownNames.1 hissue
      have hitem := List.mem_zipIdx_iff_getElem?.1 hindex
      exact ⟨index, v, name, ⟨items, item, hitems, hitem, hv⟩, hname,
        ⟨hsigil, known, hknown, hnot⟩, rfl⟩
    · cases h
  · intro ⟨index, v, name, ⟨items, item, hitems, hitem, hv⟩, hname,
      ⟨hsigil, known, hknown, hnot⟩, hissue⟩
    rw [hitems, hknown]
    refine List.mem_flatten.2
      ⟨_, List.mem_map.2 ⟨(item, index), List.mem_zipIdx_iff_getElem?.2 hitem, rfl⟩, ?_⟩
    exact mem_unknownNames.2 ⟨v, name, hv, hname, hsigil, hnot, hissue⟩

theorem count_unknownReferences {config : Record} {rule : ReferenceRule} {index : Nat} {v : Json}
    {name : String} (hv : fieldAt (.obj config) rule.collection index rule.field = some v)
    (hname : Undeclared (.obj config) rule.target name) :
    (unknownReferences config rule).count (issueOf rule index name) = mentions name v := by
  obtain ⟨items, item, hitems, hitem, hv⟩ := fieldAt_eq_some.1 hv
  obtain ⟨hsigil, known, hknown, hnot⟩ := undeclared_iff.1 hname
  unfold unknownReferences
  simp only [hitems, hknown]
  rw [count_zipIdx (fun item j => unknownNames rule known j item) ?_ items 0 hitem (Nat.zero_le _)]
  · exact count_unknownNames hv hsigil hnot index
  · intro item j hmem
    obtain ⟨_, _, -, -, -, -, heq⟩ := mem_unknownNames.1 hmem
    simp only [issueOf, Issue.unknownReference.injEq] at heq
    exact heq.2.1.symm

/-- Of a list whose rules are about different fields, one rule gives the issue. -/
theorem count_rules {config : Record} {rule : ReferenceRule} (h : rule ∈ rules) (index : Nat)
    (name : String) : (rules.flatMap (unknownReferences config)).count (issueOf rule index name) =
      (unknownReferences config rule).count (issueOf rule index name) := by
  have hfields : rules.Pairwise fun r s => (r.collection, r.field) ≠ (s.collection, s.field) := by
    decide
  obtain ⟨before, after, hrules⟩ := List.append_of_mem h
  rw [hrules, List.pairwise_append, List.pairwise_cons] at hfields
  have hnone : ∀ others : List ReferenceRule,
    (∀ r ∈ others, (r.collection, r.field) ≠ (rule.collection, rule.field)) →
      (others.flatMap (unknownReferences config)).count (issueOf rule index name) = 0 := by
    intro others hothers
    apply List.count_eq_zero_of_not_mem
    intro hmem
    obtain ⟨r, hr, hissue⟩ := List.mem_flatMap.1 hmem
    obtain ⟨_, _, _, -, -, -, heq⟩ := mem_unknownReferences.1 hissue
    simp only [issueOf, Issue.unknownReference.injEq] at heq
    apply hothers r hr
    rw [heq.1, heq.2.2.1]
  rw [hrules, List.flatMap_append, List.flatMap_cons, List.count_append, List.count_append,
    hnone before, hnone after]
  · omega
  · exact fun r hr => (hfields.2.1.1 r hr).symm
  · exact fun r hr => hfields.2.2 r hr rule (by simp)

/-! ## All reports -/

theorem repeats_iff {config : Record} {issue : Issue} :
    issue ∈ Collection.all.flatMap (duplicateIds config) ↔ ∃ key index field id,
      issue = .duplicateId key index field id ∧ Repeats (.obj config) key index field id := by
  simp only [List.mem_flatMap, mem_duplicateIds, Repeats]
  constructor
  · intro ⟨c, hc, i, field, id, hissue, hkind, hfield, hitems⟩
    exact ⟨c.key, i, field, id, hissue, c, hc, hkind, rfl, hfield, hitems⟩
  · intro ⟨key, i, field, id, hissue, c, hc, hkind, hkey, hfield, hitems⟩
    subst hkey
    exact ⟨c, hc, i, field, id, hissue, hkind, hfield, hitems⟩

theorem idAt_eq_some {items : List Json} {field id : String} {i : Nat} :
    idAt items field i = some id ↔ ∃ h : i < items.length, items[i].text? field = some id := by
  unfold idAt
  rw [Option.bind_eq_some_iff]
  constructor
  · intro ⟨item, hitem, hid⟩
    obtain ⟨h, rfl⟩ := List.getElem?_eq_some_iff.1 hitem
    exact ⟨h, hid⟩
  · intro ⟨h, hid⟩
    exact ⟨_, List.getElem?_eq_getElem h, hid⟩

theorem nodup_ids_iff (field : String) (items : List Json) :
    (items.filterMap (·.text? field)).Nodup ↔
      ∀ i id, idAt items field i = some id → ¬ ∃ j < i, idAt items field j = some id := by
  unfold List.Nodup
  rw [List.pairwise_filterMap, List.pairwise_iff_getElem]
  simp only [idAt_eq_some]
  constructor
  · intro h i id ⟨hi, hid⟩ ⟨j, hji, hj, hjd⟩
    exact h j i hj hi hji id hjd id hid rfl
  · intro h j i hj hi hji a ha b hb hab
    subst hab
    exact h i a ⟨hi, hb⟩ ⟨j, hji, hj, ha⟩

/-- What is no object counts as one without members. -/
theorem exists_members (config : Json) :
    ∃ r : Record, validate config = validate (.obj r) ∧
    ∀ key, config.get? key = (Json.obj r).get? key := by
  have hnil : validate (.obj []) = [] := by decide
  cases config with
  | obj r => exact ⟨r, rfl, fun _ => rfl⟩
  | _ => exact ⟨[], hnil.symm, fun _ => rfl⟩

theorem count_unknown {config : Record} {rule : ReferenceRule} (h : rule ∈ rules) {index : Nat}
    {v : Json} {name : String} (hv : fieldAt (.obj config) rule.collection index rule.field = some v)
    (hname : Undeclared (.obj config) rule.target name) :
    (rules.flatMap (unknownReferences config)).count (issueOf rule index name) = mentions name v :=
  (count_rules h index name).trans (count_unknownReferences hv hname)

theorem duplicateIds_eq_nil {config : Record} :
    Collection.all.flatMap (duplicateIds config) = [] ↔
      ∀ c ∈ Collection.all, c.kind = .keyed → ∀ field, c.idField = some field → ∀ items,
        (Json.obj config).get? c.key = some (.arr items) → (items.filterMap (·.text? field)).Nodup := by
  simp only [List.eq_nil_iff_forall_not_mem, repeats_iff, nodup_ids_iff]
  constructor
  · intro h c hc hkind field hfield items hitems i id hi hj
    exact h _ ⟨c.key, i, field, id, rfl, c, hc, hkind, rfl, hfield, items, hitems, hi, hj⟩
  · intro h issue ⟨key, i, field, id, _, c, hc, hkind, hkey, hfield, items, hitems, hi, hj⟩
    exact h c hc hkind field hfield items (hkey ▸ hitems) i id hi hj

theorem unknownReferences_eq_nil {config : Record} :
    rules.flatMap (unknownReferences config) = [] ↔
      ∀ rule ∈ rules, ∀ index v name, fieldAt (.obj config) rule.collection index rule.field = some v →
        0 < mentions name v → ¬ Undeclared (.obj config) rule.target name := by
  simp only [List.eq_nil_iff_forall_not_mem, List.mem_flatMap, mem_unknownReferences]
  constructor
  · intro h rule hrule index v name hv hpos hname
    exact h _ ⟨rule, hrule, index, v, name, hv, hpos, hname, rfl⟩
  · intro h issue ⟨rule, hrule, index, v, name, hv, hpos, hname, _⟩
    exact h rule hrule index v name hv hpos hname

end Validation

open Validation in
/-- Validation first reports the repeated ids, each at its own path: an item of a keyed collection
that is there as a list, with the id of an item before it. Then it reports the undeclared names,
one issue for each time that a field of a rule mentions one. It reports nothing else, so nothing at
all where the ids of each collection are distinct and every name that is checked is declared. -/
theorem validate_exact (config : Json) :
    (∃ repeated unknown, validate config = repeated ++ unknown ∧
      (repeated.map Issue.path).Nodup ∧
      (∀ issue, issue ∈ repeated ↔
        ∃ key index field id, issue = .duplicateId key index field id ∧
        Repeats config key index field id) ∧
      (∀ rule ∈ rules, ∀ index v name, fieldAt config rule.collection index rule.field = some v →
        Undeclared config rule.target name →
        unknown.count (.unknownReference rule.collection index rule.field name rule.target) =
        mentions name v) ∧
      ∀ issue ∈ unknown, ∃ rule ∈ rules, ∃ index v name,
        issue = .unknownReference rule.collection index rule.field name rule.target ∧
        fieldAt config rule.collection index rule.field = some v ∧ 0 < mentions name v ∧
        Undeclared config rule.target name) ∧
    (validate config = [] ↔
      (∀ c ∈ Collection.all, c.kind = .keyed → ∀ field, c.idField = some field → ∀ items,
        config.get? c.key = some (.arr items) → (items.filterMap (·.text? field)).Nodup) ∧
      ∀ rule ∈ rules, ∀ index v name, fieldAt config rule.collection index rule.field = some v →
        0 < mentions name v → ¬ Undeclared config rule.target name) := by
  -- A configuration that is no object is validated like the empty one.
  obtain ⟨r, hvalidate, hget⟩ := exists_members config
  have hrepeats : Repeats config = Repeats (.obj r) := by
    unfold Repeats
    simp only [hget]
  have hfield : fieldAt config = fieldAt (.obj r) := by
    unfold fieldAt
    simp only [hget]
  have hundeclared : Undeclared config = Undeclared (.obj r) := by
    unfold Undeclared
    simp only [hget]
  rw [hvalidate, hrepeats, hfield, hundeclared]
  simp only [hget]
  constructor
  · refine ⟨_, _, rfl, nodup_paths_duplicateIds r, fun _ => repeats_iff, ?_, ?_⟩
    · intro rule hrule index v name hv hname
      exact count_unknown hrule hv hname
    · intro issue hissue
      obtain ⟨rule, hrule, hmem⟩ := List.mem_flatMap.1 hissue
      obtain ⟨index, v, name, hv, hpos, hname, heq⟩ := mem_unknownReferences.1 hmem
      exact ⟨rule, hrule, index, v, name, heq, hv, hpos, hname⟩
  · unfold validate
    rw [List.append_eq_nil_iff, duplicateIds_eq_nil, unknownReferences_eq_nil]

/-- The second `npc` repeats an id and `dragon`, named twice, is no entity kind. There are no seed
entities, so the names of those are not checked. -/
def dragons : Json := .obj [
  ("entityKinds", .arr [.obj [("kind", .str "npc")], .obj [("kind", .str "npc")]]),
  ("relationshipKinds", .arr [.obj [("kind", .str "ally"), ("srcKinds", .arr [.str "npc"]),
    ("dstKinds", .arr [.str "dragon", .str "$any", .str "dragon"])]]),
  ("seedRelationships", .arr [.obj [("src", .str "nobody")]])]

open Validation in
theorem validate_exact_dragons : ∃ repeated unknown, validate dragons = repeated ++ unknown ∧
    .duplicateId "entityKinds" 1 "kind" "npc" ∈ repeated ∧ Undeclared dragons "entityKinds" "dragon" ∧
    unknown.count (.unknownReference "relationshipKinds" 0 "dstKinds" "dragon" "entityKinds") = 2 ∧
    (validate dragons).map Issue.path =
      [["entityKinds", "1", "kind"], ["relationshipKinds", "0", "dstKinds"],
        ["relationshipKinds", "0", "dstKinds"]] := by
  obtain ⟨⟨repeated, unknown, hvalidate, -, hrepeated, hunknown, -⟩, -⟩ := validate_exact dragons
  have hkinds : ∃ c ∈ Collection.all, c.kind = .keyed ∧ c.key = "entityKinds" ∧
    c.idField = some "kind" :=
    ⟨Collection.all[1], List.getElem_mem _, rfl, rfl, rfl⟩
  obtain ⟨c, hc, hkeyed, hkey, hfield⟩ := hkinds
  have hnpc : Repeats dragons "entityKinds" 1 "kind" "npc" :=
    ⟨c, hc, hkeyed, hkey, hfield, _, rfl, rfl, 0, Nat.zero_lt_one, rfl⟩
  have hdragon : Undeclared dragons "entityKinds" "dragon" :=
    ⟨by decide, c, hc, hkey, "kind", hfield, _, rfl, by decide⟩
  refine ⟨repeated, unknown, hvalidate, (hrepeated _).2 ⟨_, _, _, _, rfl, hnpc⟩, hdragon, ?_, by decide⟩
  exact hunknown ⟨"relationshipKinds", "dstKinds", "entityKinds"⟩ (by simp [rules]) 0 _
    "dragon" rfl hdragon

end Worldbook
