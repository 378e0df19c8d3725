import Worldbook.Body.Write
import Worldbook.Proofs.Conditions
import Worldbook.Proofs.Filters
import Worldbook.Proofs.Mutations
import Worldbook.Proofs.Variables

/-!
# Forms of a value

The forms of an object are built from the forms under its keys. Whether a value has a form at all
is the same for a value that recovers it, so that a value without one does not get one.
-/

namespace Worldbook

/-! ## The forms of lists and objects -/

def Record.forms (o : Record) (key : String) : Forms := ((o.get? key).map Json.forms).getD .scalar

theorem Record.forms_of_some {o : Record} {key : String} {x : Json} (h : o.get? key = some x) :
    o.forms key = x.forms := by
  rw [forms, h]; rfl

theorem Record.forms_of_none {o : Record} {key : String} (h : o.get? key = none) :
    o.forms key = .scalar := by
  rw [forms, h]; rfl

namespace Json

theorem formsOfItems_eq_map (items : List Json) : formsOfItems items = items.map forms := by
  induction items with
  | nil => rfl
  | cons v items ih => rw [formsOfItems, ih, List.map_cons]

theorem formsOfMembers_eq_map (o : Record) :
    formsOfMembers o = o.map fun m => (m.1, m.2, m.2.forms) := by
  induction o with
  | nil => rfl
  | cons m o ih => rw [formsOfMembers, ih, List.map_cons]

theorem record_formsOfMembers (o : Record) : (formsOfMembers o).record = o := by
  rw [formsOfMembers_eq_map, Members.record, List.map_map]
  exact List.map_id' o

theorem forms_formsOfMembers (o : Record) : (formsOfMembers o).forms = o.forms := by
  funext key
  rw [Members.forms, Record.forms]
  induction o with
  | nil => rfl
  | cons m o ih =>
    obtain ⟨k, v⟩ := m
    rw [formsOfMembers, List.lookup_cons, Record.get?, List.lookup_cons]
    cases h : key == k
    · exact ih
    · rfl

def field (key : String) (x : Json) : List Node := Body.statements key x x.forms

def body (o : Record) (skip : List String) : List Node :=
  (o.filter fun m => !skip.contains m.1).flatMap fun m => field m.1 m.2

theorem forms_arr (items : List Json) : (Json.arr items).forms = .ofItems (items.map forms) :=
  congrArg Forms.ofItems (formsOfItems_eq_map items)

theorem body_forms (o : Record) (skip : List String) : (Json.obj o).forms.body skip = body o skip := by
  have hfields : (Json.obj o).forms.fields = (formsOfMembers o).map fun m =>
    (m.1, Body.statements m.1 m.2.1 m.2.2) := rfl
  rw [Forms.body, hfields, formsOfMembers_eq_map, body]
  simp only [List.map_map, List.filter_map, List.flatMap_map, Function.comp_def, field]

/-! The forms of an object are those of its members, of which nothing but the object and its own
forms is asked. -/

theorem condition_obj (o : Record) : (Json.obj o).forms.condition =
    some ((Condition.write? o o.forms).getD (.block ["condition"] (body o []))) := by
  have h : (Json.obj o).forms.condition =
    some ((Condition.write? (formsOfMembers o).record (formsOfMembers o).forms).getD
      (.block ["condition"] ((Json.obj o).forms.body []))) := rfl
  rw [h, record_formsOfMembers, forms_formsOfMembers, body_forms]

theorem filter_obj (o : Record) : (Json.obj o).forms.filter =
    some ((Filter.write? o o.forms).getD (.block ["filter"] (body o []))) := by
  have h : (Json.obj o).forms.filter =
    some ((Filter.write? (formsOfMembers o).record (formsOfMembers o).forms).getD
      (.block ["filter"] ((Json.obj o).forms.body []))) := rfl
  rw [h, record_formsOfMembers, forms_formsOfMembers, body_forms]

theorem mutation_obj (o : Record) : (Json.obj o).forms.mutation =
    some ((Mutation.write? o o.forms).getD (.block ["mutation"] (body o []))) := by
  have h : (Json.obj o).forms.mutation =
    some ((Mutation.write? (formsOfMembers o).record (formsOfMembers o).forms).getD
      (.block ["mutation"] ((Json.obj o).forms.body []))) := rfl
  rw [h, record_formsOfMembers, forms_formsOfMembers, body_forms]

theorem constraint_obj (o : Record) : (Json.obj o).forms.constraint =
    some ((Path.constraint? o).getD (.block ["constraint"] (body o []))) := by
  have h : (Json.obj o).forms.constraint = some ((Path.constraint? (formsOfMembers o).record).getD
      (.block ["constraint"] ((Json.obj o).forms.body []))) := rfl
  rw [h, record_formsOfMembers, body_forms]

theorem step_obj (o : Record) : (Json.obj o).forms.step = Path.step? o o.forms := by
  have h : (Json.obj o).forms.step = Path.step? (formsOfMembers o).record (formsOfMembers o).forms :=
    rfl
  rw [h, record_formsOfMembers, forms_formsOfMembers]

theorem creation_obj (o : Record) :
    (Json.obj o).forms.creation = Body.creation? o (body o ["entityRef"]) := by
  have h : (Json.obj o).forms.creation =
      Body.creation? (formsOfMembers o).record ((Json.obj o).forms.body ["entityRef"]) := rfl
  rw [h, record_formsOfMembers, body_forms]

theorem binding_obj (o : Record) : (Json.obj o).forms.binding = Selector.binding? o o.forms := by
  have h : (Json.obj o).forms.binding = Selector.binding? (formsOfMembers o).record
    (formsOfMembers o).forms := rfl
  rw [h, record_formsOfMembers, forms_formsOfMembers]

theorem path_obj (o : Record) : (Json.obj o).forms.path = Path.write? o o.forms := by
  have h : (Json.obj o).forms.path = Path.write? (formsOfMembers o).record (formsOfMembers o).forms :=
    rfl
  rw [h, record_formsOfMembers, forms_formsOfMembers]

theorem bindings_obj (o : Record) : (Json.obj o).forms.bindings = Selector.bindings? o o.forms := by
  have h : (Json.obj o).forms.bindings = Selector.bindings? (formsOfMembers o).record
    (formsOfMembers o).forms := rfl
  rw [h, record_formsOfMembers, forms_formsOfMembers]

def selectionField? (key : String) (x : Json) : Option (List Node) :=
  Selector.field? (Body.plain (Written.quote key) key x x.forms) key x x.forms

theorem selection_obj (o : Record) : (Json.obj o).forms.selection =
    (o.mapM fun m => selectionField? m.1 m.2).map List.flatten := by
  have hselection : (Json.obj o).forms.selection = Body.selection? (formsOfMembers o) := rfl
  rw [hselection, Body.selection?, formsOfMembers_eq_map, List.mapM_map, Option.bind_eq_bind,
    Option.map_eq_bind]
  rfl

end Json

/-! ## Values that have a form -/

theorem isSome_mapM {α β : Type} (f : α → Option β) (xs : List α) :
    (xs.mapM f).isSome = xs.all fun x => (f x).isSome := by
  induction xs with
  | nil => rfl
  | cons x xs ih =>
    rw [List.mapM_cons, List.all_cons, ← ih]
    cases f x <;> cases xs.mapM f <;> rfl

/-- The second value recovers the first, of which nothing is lost. -/
structure Json.Kin (x y : Json) : Prop where
  tame : x.isTame = true
  recovers : Recovers x y

namespace Json

theorem Kin.isSome_object? {x y : Json} (h : Kin x y) : y.object?.isSome = x.object?.isSome := by
  have := h.recovers
  cases x <;> cases y <;> first | rfl | cases this

theorem Kin.items {xs : List Json} {y : Json} (h : Kin (.arr xs) y) :
    ∃ ys, y = .arr ys ∧ List.Forall₂ Kin xs ys := by
  obtain ⟨ys, rfl, hr⟩ := recovers_arr.1 h.recovers
  exact ⟨ys, rfl, (forall₂_and_left (every_arr.1 h.tame).2 hr).imp fun _ _ h => ⟨h.1, h.2⟩⟩

theorem Kin.members {o : Record} {y : Json} (h : Kin (.obj o) y) : ∃ o', y = .obj o' ∧ Alike o o' := by
  obtain ⟨o', rfl⟩ := recovers_obj_exists h.recovers
  exact ⟨o', rfl, alike_of_recovers h.tame h.recovers⟩

theorem Kin.not_arr {x y : Json} (h : Kin x y) (hx : ∀ xs, x ≠ .arr xs) (ys : List Json) :
    y ≠ .arr ys := by
  rintro rfl
  have := h.recovers
  cases x with
  | arr xs => exact hx xs rfl
  | _ => cases this

end Json

structure Forms.Lists (list : Forms → Option (List Node)) (item : Forms → Option Node) : Prop where
  arr : ∀ items : List Json, list (Json.arr items).forms = items.mapM fun v => item v.forms
  other : ∀ x : Json, x.array? = none → list x.forms = none

namespace Forms

theorem lists_conditions : Lists conditions condition where
  arr items := by rw [Json.forms_arr]; exact List.mapM_map
  other x hx := by cases x <;> first | rfl | cases hx

theorem lists_filters : Lists filters filter where
  arr items := by rw [Json.forms_arr]; exact List.mapM_map
  other x hx := by cases x <;> first | rfl | cases hx

theorem lists_mutations : Lists mutations mutation where
  arr items := by rw [Json.forms_arr]; exact List.mapM_map
  other x hx := by cases x <;> first | rfl | cases hx

theorem lists_constraints : Lists constraints constraint where
  arr items := by rw [Json.forms_arr]; exact List.mapM_map
  other x hx := by cases x <;> first | rfl | cases hx

theorem lists_steps : Lists steps step where
  arr items := by rw [Json.forms_arr]; exact List.mapM_map
  other x hx := by cases x <;> first | rfl | cases hx

theorem lists_creations : Lists creations creation where
  arr items := by rw [Json.forms_arr]; exact List.mapM_map
  other x hx := by cases x <;> first | rfl | cases hx

end Forms

namespace Json.Kin

variable {x y : Json}

/-- A list has a form where each of its items has one. -/
theorem isSome_list {list : Forms → Option (List Node)} {item : Forms → Option Node}
    (hl : Forms.Lists list item)
    (hi : ∀ {x y : Json}, Kin x y → (item y.forms).isSome = (item x.forms).isSome) (h : Kin x y) :
    (list y.forms).isSome = (list x.forms).isSome := by
  by_cases hx : ∃ xs, x = .arr xs
  · obtain ⟨xs, rfl⟩ := hx
    obtain ⟨ys, rfl, hr⟩ := h.items
    rw [hl.arr, hl.arr, isSome_mapM, isSome_mapM]
    exact forall₂_all (fun _ _ h => hi h) hr
  · have hnone : ∀ z : Json, (∀ zs, z ≠ .arr zs) → z.array? = none := by
      intro z hz
      cases z with
      | arr zs => exact absurd rfl (hz zs)
      | _ => rfl
    rw [hl.other x (hnone x fun xs he => hx ⟨xs, he⟩),
      hl.other y (hnone y (h.not_arr fun xs he => hx ⟨xs, he⟩))]

theorem isSome_conditions (h : Kin x y) : y.forms.conditions.isSome = x.forms.conditions.isSome := by
  have hitem : ∀ v : Json, v.forms.condition.isSome = v.object?.isSome := by
    intro v; cases v with
    | obj o => rw [condition_obj]; rfl
    | _ => rfl
  exact h.isSome_list Forms.lists_conditions fun h => by rw [hitem, hitem, h.isSome_object?]

theorem isSome_filters (h : Kin x y) : y.forms.filters.isSome = x.forms.filters.isSome := by
  have hitem : ∀ v : Json, v.forms.filter.isSome = v.object?.isSome := by
    intro v; cases v with
    | obj o => rw [filter_obj]; rfl
    | _ => rfl
  exact h.isSome_list Forms.lists_filters fun h => by rw [hitem, hitem, h.isSome_object?]

theorem isSome_mutations (h : Kin x y) : y.forms.mutations.isSome = x.forms.mutations.isSome := by
  have hitem : ∀ v : Json, v.forms.mutation.isSome = v.object?.isSome := by
    intro v; cases v with
    | obj o => rw [mutation_obj]; rfl
    | _ => rfl
  exact h.isSome_list Forms.lists_mutations fun h => by rw [hitem, hitem, h.isSome_object?]

theorem isSome_constraints (h : Kin x y) : y.forms.constraints.isSome = x.forms.constraints.isSome := by
  have hitem : ∀ v : Json, v.forms.constraint.isSome = v.object?.isSome := by
    intro v; cases v with
    | obj o => rw [constraint_obj]; rfl
    | _ => rfl
  exact h.isSome_list Forms.lists_constraints fun h => by rw [hitem, hitem, h.isSome_object?]

end Json.Kin

namespace Alike

variable {o o' : Record}

theorem isSome_form {α : Type} {f : Forms → Option α} (h : Alike o o') (key : String)
    (hf : ∀ {x y : Json}, Json.Kin x y → (f y.forms).isSome = (f x.forms).isSome) :
    (f (o'.forms key)).isSome = (f (o.forms key)).isSome := by
  rcases h.cases_get? key with ⟨hx, hy⟩ | ⟨x, y, hx, hy, ht, hr⟩
  · rw [Record.forms_of_none hx, Record.forms_of_none hy]
  · rw [Record.forms_of_some hx, Record.forms_of_some hy]
    exact hf ⟨ht, hr⟩

theorem isSome_step? (h : Alike o o') :
    (Path.step? o' o'.forms).isSome = (Path.step? o o.forms).isSome := by
  have hf := h.isSome_form (f := Forms.filters) "filters" Json.Kin.isSome_filters
  simp [Path.step?, h.hasOnly, h.aliasWord?, h.text?, h.optionalText?, h.has, Option.isSome_bind,
    any_const, hf, apply_ite Option.isSome]

end Alike

theorem Json.Kin.isSome_step {x y : Json} (h : Kin x y) :
    y.forms.step.isSome = x.forms.step.isSome := by
  cases x with
  | obj o =>
    obtain ⟨o', rfl, ho⟩ := h.members
    rw [step_obj, step_obj, ho.isSome_step?]
  | _ =>
    have hr := h.recovers
    cases y <;> first | rfl | cases hr

namespace Alike

variable {o o' : Record}

theorem isSome_count? (h : Alike o o') : (Path.count? o').isSome = (Path.count? o).isSome := by
  rw [Path.count?, Path.count?]
  rcases h.cases_get? "count" with ⟨hx, hy⟩ | ⟨x, y, hx, hy, ht, hr⟩
  · rw [hx, hy]
  · rw [hx, hy]
    cases x with
    | obj c =>
      obtain ⟨c', rfl, hc⟩ := Json.Kin.members ⟨ht, hr⟩
      simp [hc.hasOnly, Option.isSome_bind, hc.isSome_requiredBounds?, apply_ite Option.isSome]
    | _ => cases y <;> first | rfl | cases hr

theorem isSome_path? (h : Alike o o') :
    (Path.write? o' o'.forms).isSome = (Path.write? o o.forms).isSome := by
  have hsteps := h.isSome_form (f := Forms.steps) "path" fun h =>
    h.isSome_list Forms.lists_steps Json.Kin.isSome_step
  have hwhere := h.isSome_form (f := Forms.constraints) "where" Json.Kin.isSome_constraints
  simp [Path.write?, Path.where?, h.hasOnly, h.text?, h.has, Option.isSome_bind, any_const,
    hsteps, hwhere, h.isSome_count?, apply_ite Option.isSome]

theorem constraint? (h : Alike o o') : Path.constraint? o' = Path.constraint? o := by
  simp [Path.constraint?, Written.hasOnly, h.hasOnly, h.text?, Filter.relationshipWords?_of_alike h]

end Alike

theorem Json.Kin.isSome_path {x y : Json} (h : Kin x y) :
    y.forms.path.isSome = x.forms.path.isSome := by
  cases x with
  | obj o =>
    obtain ⟨o', rfl, ho⟩ := h.members
    rw [path_obj, path_obj, ho.isSome_path?]
  | _ =>
    have hr := h.recovers
    cases y <;> first | rfl | cases hr

namespace Alike

variable {o o' : Record}

theorem isSome_condition? (h : Alike o o') :
    (Condition.write? o' o'.forms).isSome = (Condition.write? o o.forms).isSome := by
  have hk : ∀ k : Condition.Keyword, (k.statement? o' o'.forms).isSome =
    (k.statement? o o.forms).isSome := by
    intro k
    have hconditions := h.isSome_form (f := Forms.conditions) "conditions" Json.Kin.isSome_conditions
    have hpath := h.isSome_form (f := Forms.path) "assert" Json.Kin.isSome_path
    have hbody : (k.body? o' o'.forms).isSome = (k.body? o o.forms).isSome := by
      cases k <;> simp [Condition.Keyword.body?, Written.hasOnly, h.hasOnly, hconditions, hpath,
        apply_ite Option.isSome]
    simp [Condition.Keyword.statement?, Option.isSome_bind, hbody, Condition.Keyword.isSome_words? h,
      apply_ite Option.isSome]
  simp [Condition.write?, h.text?, Option.isSome_bind, hk]

theorem isSome_filter? (h : Alike o o') :
    (Filter.write? o' o'.forms).isSome = (Filter.write? o o.forms).isSome := by
  have hk : ∀ k : Filter.Keyword, (k.statement? o' o'.forms).isSome =
    (k.statement? o o.forms).isSome := by
    intro k
    have hpath := h.isSome_form (f := Forms.path) "assert" Json.Kin.isSome_path
    cases k <;> simp [Filter.Keyword.statement?, Written.hasOnly, h.hasOnly, hpath, Option.isSome_bind,
      Filter.Keyword.isSome_words? h, apply_ite Option.isSome]
  simp [Filter.write?, h.text?, Option.isSome_bind, hk]

theorem isSome_mutation? (h : Alike o o') :
    (Mutation.write? o' o'.forms).isSome = (Mutation.write? o o.forms).isSome := by
  have hk : ∀ k : Mutation.Keyword, (k.statement? o' o'.forms).isSome =
    (k.statement? o o.forms).isSome := by
    intro k
    have hconditions := h.isSome_form (f := Forms.conditions) "conditions" Json.Kin.isSome_conditions
    have hmutations := fun key => h.isSome_form (f := Forms.mutations) key Json.Kin.isSome_mutations
    cases hn : k.nests with
    | false => exact Mutation.isSome_statement? h hn _ _
    | true =>
      cases k with
      | forEachRelated =>
        simp [Mutation.Keyword.statement?, Mutation.forEachRelated?, Written.hasOnly, h.hasOnly,
          h.aliasWord?, Mutation.Keyword.entityAndKind?_of_alike h, Mutation.Keyword.direction?_of_alike
          h, Option.isSome_bind,
          hmutations, apply_ite Option.isSome]
      | conditional =>
        simp [Mutation.Keyword.statement?, Mutation.conditional?, Mutation.alternative?,
          Written.hasOnly, h.hasOnly, h.has, Option.isSome_bind, hconditions, hmutations, any_const,
          apply_ite Option.isSome]
      | _ => cases hn
  simp [Mutation.write?, h.text?, Option.isSome_bind, hk]

end Alike

/-- What holds of each field's value and what recovers it holds of all fields. -/
theorem Alike.all {o o' : Record} {p : String → Json → Bool} (h : Alike o o')
    (hp : ∀ {x y : Json}, Json.Kin x y → ∀ key, p key y = p key x) :
    (o'.all fun m => p m.1 m.2) = o.all fun m => p m.1 m.2 := by
  rw [Bool.eq_iff_iff, List.all_eq_true, List.all_eq_true]
  exact h.forall_mem_iff (P := fun key x => p key x = true) fun ht hr => by rw [hp ⟨ht, hr⟩]

/-! ## Selections and variables that have a form -/

namespace Selector

open Written

/-- What is neither text nor list nor object has no form of its own in a selection. -/
theorem field?_arr (plain : Node) (key : String) (xs : List Json) (forms : Forms) :
    field? plain key (.arr xs) forms = match pair? key (.arr xs) with
      | some words => some [.line words]
      | none =>
        if key = "saturationLimits" then xs.mapM saturation?
        else if key = "filters" ∨ key = "preferFilters" then forms.filters.map fun list =>
        [.block [key] list] else some [plain] := by
  unfold field?
  cases pair? key (.arr xs) with
  | some ws => rfl
  | none =>
    by_cases h1 : key = "saturationLimits"
    · subst h1; rfl
    by_cases h2 : key = "filters"
    · subst h2; rfl
    by_cases h3 : key = "preferFilters"
    · subst h3; rfl
    simp only [h1, h2, h3, or_self, if_false]
    split <;> first | rfl | simp_all

/-- A text, an object or anything but a list has a form of its own only as the origin. -/
theorem field?_of_not_arr (plain : Node) (key : String) {x : Json} (hx : ∀ xs, x ≠ .arr xs)
    (forms : Forms) : field? plain key x forms = match pair? key x with
      | some words => some [.line words]
      | none =>
        if key = "from" ∧ (x.string?.isSome || x.object?.isSome) =
          true then (origin? x).map ([·]) else some [plain] := by
  unfold field?
  cases pair? key x with
  | some ws => rfl
  | none =>
    by_cases h1 : key = "from"
    · subst h1
      cases x with
      | arr xs => exact absurd rfl (hx xs)
      | _ => rfl
    · simp only [h1, false_and, if_false]
      split <;> simp_all

end Selector

namespace Json.Kin

open Selector

variable {x y : Json}

theorem isSome_pair? (h : Kin x y) (key : String) : (pair? key y).isSome = (pair? key x).isSome := by
  cases x with
  | arr xs =>
    obtain ⟨ys, rfl, hr⟩ := h.items
    have hall : (ys.all fun v => v.string?.isSome) = xs.all fun v => v.string?.isSome :=
      forall₂_all (fun _ _ h => by rw [string?_of_recovers h.recovers]) hr
    simp only [pair?, hall, apply_ite Option.isSome]
    rfl
  | str s => rw [recovers_str.1 h.recovers]
  | num m =>
    obtain ⟨n, rfl, -⟩ := recovers_num.1 h.recovers
    simp only [pair?, apply_ite Option.isSome]
    rfl
  | _ =>
    have hr := h.recovers
    cases y <;> first | rfl | cases hr

theorem isSome_saturation? (h : Kin x y) : (saturation? y).isSome = (saturation? x).isSome := by
  cases x with
  | obj o =>
    obtain ⟨o', rfl, ho⟩ := h.members
    simp [saturation?, object?, ho.hasOnly, ho.text?, ho.optionalText?, ho.isSome_number?,
      Option.isSome_bind, any_const, apply_ite Option.isSome]
  | _ =>
    have hr := h.recovers
    cases y <;> first | rfl | cases hr

theorem isSome_origin? (h : Kin x y) : (origin? y).isSome = (origin? x).isSome := by
  cases x with
  | obj o =>
    obtain ⟨o', rfl, ho⟩ := h.members
    simp [origin?, ho.hasOnly, ho.text?, Option.isSome_bind, apply_ite Option.isSome]
  | str s => rw [recovers_str.1 h.recovers]
  | _ =>
    have hr := h.recovers
    cases y <;> first | rfl | cases hr

theorem isSome_selectionField? (h : Kin x y) (key : String) :
    (selectionField? key y).isSome = (selectionField? key x).isSome := by
  rw [selectionField?, selectionField?]
  by_cases hx : ∃ xs, x = .arr xs
  · obtain ⟨xs, rfl⟩ := hx
    obtain ⟨ys, rfl, hr⟩ := h.items
    have hpair := h.isSome_pair? key
    have hlimits : (ys.mapM saturation?).isSome = (xs.mapM saturation?).isSome := by
      rw [isSome_mapM, isSome_mapM]
      exact forall₂_all (fun _ _ h => h.isSome_saturation?) hr
    have hfilters := h.isSome_filters
    rw [field?_arr, field?_arr]
    cases hp : pair? key (.arr xs) <;> cases hq : pair? key (.arr ys) <;>
      simp_all [apply_ite Option.isSome]
  · have hx' : ∀ xs, x ≠ .arr xs := fun xs he => hx ⟨xs, he⟩
    have hpair := h.isSome_pair? key
    have hstring := congrArg Option.isSome (string?_of_recovers h.recovers)
    rw [field?_of_not_arr _ _ hx', field?_of_not_arr _ _ (h.not_arr hx')]
    cases hp : pair? key x <;> cases hq : pair? key y <;>
      simp_all [apply_ite Option.isSome, h.isSome_object?, h.isSome_origin?]

theorem isSome_selection (h : Kin x y) : y.forms.selection.isSome = x.forms.selection.isSome := by
  cases x with
  | obj o =>
    obtain ⟨o', rfl, ho⟩ := h.members
    rw [selection_obj, selection_obj, Option.isSome_map, Option.isSome_map, isSome_mapM, isSome_mapM]
    exact ho.all fun h key => h.isSome_selectionField? key
  | _ =>
    have hr := h.recovers
    cases y <;> first | rfl | cases hr

end Json.Kin

namespace Selector

theorem isSome_pairs? (o : Record) : (pairs? o).isSome = o.all fun m => (pair? m.1 m.2).isSome := by
  induction o with
  | nil => rfl
  | cons m o ih =>
    obtain ⟨key, x⟩ := m
    rw [List.all_cons, ← ih, pairs?]
    cases pair? key x <;> cases pairs? o <;> rfl

end Selector

namespace Alike

variable {o o' : Record}

theorem required? (h : Alike o o') : Selector.required? o' = Selector.required? o := by
  rw [Selector.required?, Selector.required?]
  rcases h.cases_get? "required" with ⟨hx, hy⟩ | ⟨x, y, hx, hy, -, hr⟩
  · rw [hx, hy]
  · rw [hx, hy]
    cases x <;> cases y <;> first | rfl | cases hr; rfl | cases hr

theorem isSome_binding? (h : Alike o o') (name : String) :
    (Selector.binding? o' o'.forms name).isSome = (Selector.binding? o o.forms name).isSome := by
  have hselection := h.isSome_form (f := Forms.selection) "select" Json.Kin.isSome_selection
  simp only [Selector.binding?, h.hasOnly, h.required?]
  rcases h.cases_get? "select" with ⟨hx, hy⟩ | ⟨x, y, hx, hy, ht, hr⟩
  · simp [hx, hy]
  · cases x with
    | obj s =>
      obtain ⟨s', rfl, hs⟩ := Json.Kin.members ⟨ht, hr⟩
      have hpairs : (Selector.pairs? s').isSome = (Selector.pairs? s).isSome := by
        rw [Selector.isSome_pairs?, Selector.isSome_pairs?]
        exact hs.all fun h key => h.isSome_pair? key
      cases hp : Selector.pairs? s <;> cases hp' : Selector.pairs? s' <;> rw [hp, hp'] at hpairs <;>
        simp_all [Json.object?, Option.isSome_bind, apply_ite Option.isSome]
    | _ => cases y <;> first | exact hr.elim | simp [hx, hy, Json.object?]

end Alike

theorem Json.Kin.isSome_binding {x y : Json} (h : Kin x y) (name : String) :
    (y.forms.binding name).isSome = (x.forms.binding name).isSome := by
  cases x with
  | obj o =>
    obtain ⟨o', rfl, ho⟩ := h.members
    rw [binding_obj, binding_obj, ho.isSome_binding?]
  | _ =>
    have hr := h.recovers
    cases y <;> first | rfl | cases hr

theorem Json.Kin.isSome_bindings {x y : Json} (h : Kin x y) :
    y.forms.bindings.isSome = x.forms.bindings.isSome := by
  cases x with
  | obj o =>
    obtain ⟨o', rfl, ho⟩ := h.members
    rw [bindings_obj, bindings_obj, Selector.bindings?, Selector.bindings?, isSome_mapM, isSome_mapM,
      Bool.eq_iff_iff, List.all_eq_true, List.all_eq_true]
    have hname := fun name => ho.isSome_form (f := fun forms => forms.binding name) name fun h =>
      h.isSome_binding name
    simp only [(Variables.order_perm _).mem_iff, ho.mem_keys, hname]
  | _ =>
    have hr := h.recovers
    cases y <;> first | rfl | cases hr

theorem Json.Kin.isSome_creation {x y : Json} (h : Kin x y) :
    y.forms.creation.isSome = x.forms.creation.isSome := by
  cases x with
  | obj o =>
    obtain ⟨o', rfl, ho⟩ := h.members
    have hone : ∀ (r : Record) (body : List Node), (Body.creation? r body).isSome =
        ((Written.text? r "entityRef").bind Written.alias?).isSome := by
      intro r body
      rw [Body.creation?]
      cases (Written.text? r "entityRef").bind Written.alias? with
      | none => rfl
      | some reference => cases Written.pairs? (r.filter (·.1 != "entityRef")) <;> rfl
    rw [creation_obj, creation_obj, hone, hone, ho.text?]
  | _ =>
    have hr := h.recovers
    cases y <;> first | rfl | cases hr

/-! ## Fields in the language of their key -/

namespace Body

theorem isSome_relationships? {xs ys : List Json} (h : List.Forall₂ Json.Kin xs ys) :
    (relationships? ys).isSome = (relationships? xs).isSome := by
  rw [relationships?, relationships?, isSome_mapM, isSome_mapM]
  refine forall₂_all (fun x y h => ?_) h
  cases x with
  | obj o =>
    obtain ⟨o', rfl, ho⟩ := h.members
    exact ho.isSome_relationship? "rel" []
  | _ =>
    have hr := h.recovers
    cases y <;> first | rfl | cases hr

/-- The keys whose block is a list of conditions, filters or mutations, or a selection. -/
inductive Blocks : String → (Forms → Option (List Node)) → Prop
  | applicability : Blocks "applicability" Forms.conditions
  | conditions : Blocks "conditions" Forms.conditions
  | filters : Blocks "filters" Forms.filters
  | preferFilters : Blocks "preferFilters" Forms.filters
  | mutations : Blocks "mutations" Forms.mutations
  | effects : Blocks "effects" Forms.mutations
  | stateUpdates : Blocks "stateUpdates" Forms.mutations
  | selection : Blocks "selection" Forms.selection
  | actor : Blocks "actor" Forms.selection
  | target : Blocks "target" Forms.selection

theorem language?_of_blocks {key : String} {f : Forms → Option (List Node)} (h : Blocks key f)
    (x : Json) (forms : Forms) : language? key x forms = (f forms).map fun b => [.block [key] b] := by
  cases h <;> rfl

theorem language?_of_not_mem {key : String} (h : key ∉ languageKeys) (x : Json) (forms : Forms) :
    language? key x forms = none := by
  unfold language?
  split <;> simp_all [languageKeys]

theorem language?_variables (o : Record) (forms : Forms) :
    language? "variables" (.obj o) forms = if o.isEmpty then none else forms.bindings := by
  cases o <;> rfl

theorem language?_creation (xs : List Json) (forms : Forms) :
    language? "creation" (.arr xs) forms = if xs.isEmpty then none else forms.creations := by
  cases xs <;> rfl

theorem language?_relationships (xs : List Json) (forms : Forms) :
    language? "relationships" (.arr xs) forms = if xs.isEmpty then none else relationships? xs := by
  cases xs <;> rfl

theorem mem_languageKeys {key : String} (h : key ∈ languageKeys) :
    (∃ f, Blocks key f) ∨ key = "variables" ∨ key = "creation" ∨ key = "relationships" := by
  simp only [languageKeys, List.mem_cons, List.not_mem_nil, or_false] at h
  rcases h with rfl | rfl | rfl | rfl | rfl | rfl | rfl | rfl | rfl | rfl | rfl | rfl | rfl
  · exact .inl ⟨_, .applicability⟩
  · exact .inl ⟨_, .conditions⟩
  · exact .inl ⟨_, .filters⟩
  · exact .inl ⟨_, .preferFilters⟩
  · exact .inl ⟨_, .mutations⟩
  · exact .inl ⟨_, .effects⟩
  · exact .inl ⟨_, .stateUpdates⟩
  · exact .inl ⟨_, .selection⟩
  · exact .inl ⟨_, .actor⟩
  · exact .inl ⟨_, .target⟩
  · exact .inr (.inl rfl)
  · exact .inr (.inr (.inl rfl))
  · exact .inr (.inr (.inr rfl))

theorem Blocks.isSome {key : String} {f : Forms → Option (List Node)} (hb : Blocks key f) {x y : Json}
    (h : Json.Kin x y) : (f y.forms).isSome = (f x.forms).isSome := by
  cases hb with
  | applicability | conditions => exact h.isSome_conditions
  | filters | preferFilters => exact h.isSome_filters
  | mutations | effects | stateUpdates => exact h.isSome_mutations
  | selection | actor | target => exact h.isSome_selection

/-- A field is in the language of its key, or is not, like what recovers it. -/
theorem isSome_language? {x y : Json} (h : Json.Kin x y) (key : String) :
    (language? key y y.forms).isSome = (language? key x x.forms).isSome := by
  by_cases hk : key ∈ languageKeys
  -- Besides the blocks there are three keys with a form of their own: `variables`, `creation` and
  -- `relationships`.
  · rcases mem_languageKeys hk with ⟨f, hb⟩ | rfl | rfl | rfl
    · rw [language?_of_blocks hb, language?_of_blocks hb, Option.isSome_map,
        Option.isSome_map, hb.isSome h]
    · cases x with
      | obj o =>
        have hbindings := h.isSome_bindings
        obtain ⟨o', rfl, ho⟩ := h.members
        have hempty : o'.isEmpty = o.isEmpty := by
          have := ho.length
          cases o <;> cases o' <;> simp_all
        rw [language?_variables, language?_variables, hempty]
        split
        · rfl
        · exact hbindings
      | _ =>
        have hr := h.recovers
        cases y <;> first | exact hr.elim | rfl
    · cases x with
      | arr xs =>
        have hcreations := h.isSome_list Forms.lists_creations Json.Kin.isSome_creation
        obtain ⟨ys, rfl, hys⟩ := h.items
        have hempty : ys.isEmpty = xs.isEmpty := by cases hys <;> rfl
        rw [language?_creation, language?_creation, hempty]
        split
        · rfl
        · exact hcreations
      | _ =>
        have hr := h.recovers
        cases y <;> first | exact hr.elim | rfl
    · cases x with
      | arr xs =>
        obtain ⟨ys, rfl, hys⟩ := h.items
        have hempty : ys.isEmpty = xs.isEmpty := by cases hys <;> rfl
        rw [language?_relationships, language?_relationships, hempty]
        split
        · rfl
        · exact isSome_relationships? hys
      | _ =>
        have hr := h.recovers
        cases y <;> first | exact hr.elim | rfl
  · rw [language?_of_not_mem hk, language?_of_not_mem hk]

end Body

end Worldbook
