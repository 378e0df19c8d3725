import Worldbook.Proofs.Files

/-!
# Languages decode what they encode

The statements of a list of records, of a path assertion, of a selection or of variables are
compiled to the same records wherever they stand: at any indentation, and whatever names are bound
around them. Only an empty list of limits has no statement. Amounts of change come back to the last
bit, so that a negative zero keeps its sign.
-/

namespace Worldbook

open Written CompileM

/-- Written at any indentation and compiled in any context, the statements give a result with the
property, and no report. -/
def Decodes {α : Type} (ns : List Node) (compile : List Child → CompileM α) (Q : α → Prop) : Prop :=
  ∀ (file : FileId) (indent width : Nat), ∃ ss, parse file (Node.texts indent width ns) = .ok ss ∧
    Statement.overflowsAll ss = [] ∧ Yields (compile (Statement.children ss)) Q

theorem Decodes.imp {α : Type} {ns : List Node} {compile : List Child → CompileM α} {P Q : α → Prop}
    (h : Decodes ns compile P) (hpq : ∀ a, P a → Q a) : Decodes ns compile Q := by
  intro file indent width
  obtain ⟨ss, hss, hover, hyields⟩ := h file indent width
  exact ⟨ss, hss, hover, hyields.imp hpq⟩

theorem decodes_of_parses {α : Type} {ns : List Node} {compile : List Child → CompileM α} {Q : α → Prop}
    (h : ParsesAll ns fun ss => Yields (compile (Statement.children ss)) Q) : Decodes ns compile Q := by
  intro file indent width
  have hlaid : Laid indent [] ns ((Node.texts indent width ns).toList ++ ([] ++ [])) :=
    laid_texts (by simp) h.words_ne_nil
  rw [List.append_nil, List.append_nil] at hlaid
  exact parse_of_laid h file hlaid

/-! ## Lists of records -/

theorem exists_mapM {α β : Type} {f : α → Option β} {xs : List α} (h : ∀ x ∈ xs, (f x).isSome = true) :
    ∃ ys, xs.mapM f = some ys := by
  induction xs with
  | nil => exact ⟨[], rfl⟩
  | cons x xs ih =>
    obtain ⟨y, hy⟩ := Option.isSome_iff_exists.1 (h x (List.mem_cons_self ..))
    obtain ⟨ys, hys⟩ := ih fun x hx => h x (List.mem_cons_of_mem _ hx)
    exact ⟨y :: ys, mapM_cons_eq_some.2 ⟨y, ys, hy, hys, rfl⟩⟩

theorem list_decodes {compile : Statement → Nested → Attempt Json} {list : Forms → Option (List Node)}
    {item : Forms → Option Node} (hl : Forms.Lists list item)
    (hitem : ∀ o : Record, (item (Json.obj o).forms).isSome = true) {R : Json → Json → Prop}
    {items : List Record} (h : ∀ o ∈ items, ∀ n, item (Json.obj o).forms = some n → n.Parses fun s =>
      Gives (compile s s.nested) (R (.obj o))) :
    ∃ ns, list (Json.arr (items.map .obj)).forms = some ns ∧
      Decodes ns (collect fun (c : Child) => compile c.1 c.2) (List.Forall₂ R (items.map .obj)) := by
  have hsome : ∀ v ∈ items.map Json.obj, (item v.forms).isSome = true := by
    simp only [List.forall_mem_map]
    intro o _
    exact hitem o
  obtain ⟨ns, hns⟩ := exists_mapM hsome
  refine ⟨ns, by rw [hl.arr]; exact hns, decodes_of_parses (items_collect ?_ hns)⟩
  simp only [List.forall_mem_map]
  exact h

theorem sameItems_of_recovers {xs ys : List Json} (ht : ∀ x ∈ xs, x.isTame = true)
    (h : List.Forall₂ Json.Recovers xs ys) : Json.sameItems ys xs = true := by
  have harr : (Json.arr xs).isTame = true := Json.every_arr.2 ⟨rfl, ht⟩
  have hsame : (Json.arr ys).same (.arr xs) = true :=
    Json.same_of_recovers harr (Json.recoversItems_iff.2 h)
  rwa [Json.same] at hsame

theorem list_decodes_same {compile : Statement → Nested → Attempt Json}
    {list : Forms → Option (List Node)} {item : Forms → Option Node} (hl : Forms.Lists list item)
    (hitem : ∀ o : Record, (item (Json.obj o).forms).isSome = true) {items : List Record}
    (ht : ∀ o ∈ items, (Json.obj o).isTame = true)
    (h : ∀ x : Json, Json.Restored x → ItemReturns compile item x) :
    ∃ ns, list (Json.arr (items.map .obj)).forms = some ns ∧
      Decodes ns (collect fun (c : Child) => compile c.1 c.2) fun ys =>
      Json.sameItems ys (items.map .obj) = true := by
  have hreturns : ∀ o ∈ items, ItemReturns compile item (.obj o) :=
    fun o ho => h _ (Json.restored (Json.isValid_of_isTame (ht o ho)))
  obtain ⟨ns, hns, hd⟩ := list_decodes hl hitem hreturns
  refine ⟨ns, hns, hd.imp fun ys hys => sameItems_of_recovers ?_ (hys.imp fun _ _ hr => hr.1)⟩
  simpa only [List.forall_mem_map] using ht

/-- Conditions, filters, constraints and path assertions are compiled to what they were written
from, without a report and whatever is bound. -/
theorem languages_decode {items : List Record} (h : ∀ o ∈ items, (Json.obj o).isTame = true)
    {assertion : Record} (ha : (Json.obj assertion).isTame = true) :
    (∃ ns, (Json.arr (items.map .obj)).forms.conditions = some ns ∧
      Decodes ns Condition.compileAll fun ys => Json.sameItems ys (items.map .obj) = true) ∧
    (∃ ns, (Json.arr (items.map .obj)).forms.filters = some ns ∧
      Decodes ns Filter.compileAll fun ys => Json.sameItems ys (items.map .obj) = true) ∧
    (∃ ns, (Json.arr (items.map .obj)).forms.constraints = some ns ∧
      Decodes ns Path.constraints fun ys => Json.sameItems ys (items.map .obj) = true) ∧
    ∀ ns, (Json.obj assertion).forms.path = some ns → ∀ block : Span,
      Decodes ns (Path.compile · block) fun r => (Json.obj r).same (.obj assertion) = true := by
  refine ⟨?_, ?_, ?_, fun ns hns block => ?_⟩
  · exact list_decodes_same Forms.lists_conditions (fun o => by rw [Json.condition_obj]; rfl) h
      fun _ hx => hx.condition
  · exact list_decodes_same Forms.lists_filters (fun o => by rw [Json.filter_obj]; rfl) h fun _ hx =>
      hx.filter
  · exact list_decodes_same Forms.lists_constraints (fun o => by rw [Json.constraint_obj]; rfl) h
      fun _ hx => hx.constraint
  · have hpath := (Json.restored (Json.isValid_of_isTame ha)).path ns hns
    refine decodes_of_parses (hpath.imp fun ss hss => (hss block).imp fun r hr => ?_)
    exact Json.same_of_recovers ha hr.1

def acquaintance : Record :=
  [("check", .str "count"), ("count", .obj [("min", .num (.int 2))]),
    ("path", .arr [.obj [("via", .str "ally"), ("direction", .str "both"), ("targetKind", .str "npc"),
      ("targetSubtype", .str "any"), ("as", .str "$friend"),
      ("filters", .arr
        [.obj [("type", .str "exclude"), ("entities", .arr [.str "$self", .str "hero"])]])]]),
    ("where", .arr [.obj [("type", .str "in"), ("set", .str "friends")], .obj [("type", .str "near")]])]

/-- A group with a range of one value and a path in it, and a record outside the vocabulary. -/
def probe : List Record :=
  [[("type", .str "or"), ("conditions", .arr [
      .obj [("type", .str "pressure"), ("pressureId", .str "end"), ("min", .num (.int 1)),
        ("max", .num (.int 1))],
      .obj [("type", .str "graph_path"), ("assert", .obj acquaintance)]])],
    [("type", .str "weather"), ("is raining", .bool true)]]

theorem languages_decode_probe :
    (∀ o ∈ probe, (Json.obj o).isTame = true) ∧ (Json.obj acquaintance).isTame = true ∧
    (∃ ns, (Json.arr (probe.map .obj)).forms.conditions = some ns ∧
      Decodes ns Condition.compileAll fun ys => Json.sameItems ys (probe.map .obj) = true) ∧
    ∃ ns, (Json.obj acquaintance).forms.path = some ns ∧ ∀ block : Span,
      Decodes ns (Path.compile · block) fun r => (Json.obj r).same (.obj acquaintance) = true := by
  have htame : ∀ o ∈ probe, (Json.obj o).isTame = true := by decide
  have hassertion : (Json.obj acquaintance).isTame = true := by decide
  obtain ⟨hconditions, -, -, hpath⟩ := languages_decode htame hassertion
  obtain ⟨ns, hns⟩ : ∃ ns, (Json.obj acquaintance).forms.path = some ns := ⟨_, rfl⟩
  exact ⟨htame, hassertion, hconditions, ns, hns, hpath ns hns⟩

/-! ## Selections and variables -/

namespace Selector

theorem fields_selects {o : Record} (hv : (Json.obj o).isValid = true) :
    ∀ m ∈ o, FieldSelects m.1 m.2 := by
  intro m hm
  have hm := Json.isValid_members hv m hm
  exact field_selects m.1 hm (Json.restored hm).filters (Json.restored hm).fields

theorem selection_decodes {o : Record} (hv : (Json.obj o).isValid = true) {ns : List Node}
    (hns : (Json.obj o).forms.selection = some ns) :
    Decodes ns (compile · []) fun r => FieldsReturned Json.selectionField? (kept o) r := by
  rw [Json.selection_obj, Option.map_eq_some_iff] at hns
  obtain ⟨parts, hparts, rfl⟩ := hns
  refine decodes_of_parses ((fields_select (fields_selects hv) hparts).imp fun ss hss => ?_)
  refine (hss [] (Json.nodup_of_isValid hv)).imp ?_
  rintro _ ⟨r, rfl, hr⟩
  exact hr

theorem isTame_kept {o : Record} (hv : (Json.obj o).isValid = true) (ht : ∀ m ∈ o, m.2.isTame = true) :
    (Json.obj (kept o)).isTame = true := by
  have hkeys : (kept o).keys.Nodup := Record.nodup_filter (Json.nodup_of_isValid hv) _
  refine Json.every_obj.2 ⟨?_, fun m hm => ht m (List.mem_filter.1 hm).1⟩
  have hlimited : Json.isLimited (.obj (kept o)) = true := by
    rw [Json.isLimited]
    split
    · rename_i hget
      have := (List.mem_filter.1 (Record.mem_of_get? hget)).2
      simp [isLost] at this
    · rfl
  rw [hlimited]
  simpa [Json.isHeld, Json.isNarrowNumber] using hkeys

end Selector

/-- A selection is compiled to all its fields but an empty list of limits, and variables to all of
them with the same exception inside, without a report and whatever is bound. -/
theorem selections_decode {o vars : Record} (ho : (Json.obj o).isValid = true)
    (hvars : (Json.obj vars).isValid = true) (hne : vars ≠ []) :
    (∀ ns, (Json.obj o).forms.selection = some ns → Decodes ns (Selector.compile · []) fun r =>
      (Json.obj o).Recovers (.obj r) ∧ r.keys = (Selector.kept o).keys ∧
        ((∀ m ∈ o, m.2.isTame = true) → (Json.obj r).same (.obj (Selector.kept o)) = true)) ∧
    ∀ ns, (Json.obj vars).forms.bindings = some ns → Decodes ns (Body.fields · []) fun r =>
      ∃ held, r = [("variables", .obj held)] ∧ (Json.obj vars).Recovers (.obj held) ∧
        ((Json.obj vars).isTame = true →
          (Json.obj r).same (.obj [("variables", .obj vars)]) = true) := by
  refine ⟨fun ns hns => ?_, fun ns hns => ?_⟩
  · refine (Selector.selection_decodes ho hns).imp fun r hr => ?_
    refine ⟨Selector.recovers_of_kept (Json.nodup_of_isValid ho) hr, hr.keys, fun ht => ?_⟩
    have hkept := hr.recovers (Record.nodup_filter (Json.nodup_of_isValid ho) _)
    exact Json.same_of_recovers (Selector.isTame_kept ho ht) hkept
  · have hbinding : ∀ m ∈ vars, Selector.BindingReturns m.1 m.2 :=
      fun m hm => (Json.restored (Json.isValid_members hvars m hm)).binding m.1
    refine decodes_of_parses
      ((Selector.bindings_return (Json.nodup_of_isValid hvars) hne hbinding hns).imp fun ss hss => ?_)
    refine (hss [] (by simp)).imp ?_
    rintro _ ⟨y, rfl, hy⟩
    obtain ⟨held, rfl⟩ := Json.recovers_obj_exists hy.1
    refine ⟨held, rfl, hy.1, fun ht => ?_⟩
    have hsame := Json.same_of_recovers ht hy.1
    simpa [Json.same, Json.sameMembers, Record.get?_cons] using hsame

def company : Record :=
  [("from", .obj [("relatedTo", .str "$hero"), ("relationshipKind", .str "ally"),
    ("direction", .str "both")]), ("kind", .str "npc"), ("saturationLimits", .arr []),
    ("maxResults", .num (.int 10)),
    ("filters", .arr [.obj [("type", .str "exclude"), ("entities", .arr [.str "$hero"])]])]

/-- A variable on a line, and one in a block that mentions it. -/
def cast : Record :=
  [("$friend", .obj [("select", .obj [("from", .str "$hero"), ("preferFilters", .arr [])])]),
    ("$hero", .obj [("select", .obj [("kinds", .arr [.str "npc", .str "end"])]),
      ("required", .bool true)])]

theorem selections_decode_company : (Json.obj company).isValid = true ∧ (Json.obj cast).isTame = true ∧
    (∃ ns, (Json.obj company).forms.selection = some ns ∧ Decodes ns (Selector.compile · []) fun r =>
      (Json.obj r).same (.obj (company.without ["saturationLimits"])) = true) ∧
    ∃ ns, (Json.obj cast).forms.bindings = some ns ∧ Decodes ns (Body.fields · []) fun r =>
      (Json.obj r).same (.obj [("variables", .obj cast)]) = true := by
  have hvalid : (Json.obj company).isValid = true := by decide
  have htame : (Json.obj cast).isTame = true := by decide
  obtain ⟨hselection, hbindings⟩ := selections_decode hvalid (Json.isValid_of_isTame htame) (by decide)
  obtain ⟨ns, hns⟩ : ∃ ns, (Json.obj company).forms.selection = some ns := ⟨_, rfl⟩
  obtain ⟨lets, hlets⟩ : ∃ ns, (Json.obj cast).forms.bindings = some ns := ⟨_, rfl⟩
  refine ⟨hvalid, htame, ⟨ns, hns, (hselection ns hns).imp fun r hr => hr.2.2 (by decide)⟩,
    lets, hlets, (hbindings lets hlets).imp ?_⟩
  rintro r ⟨held, -, -, hsame⟩
  exact hsame htame

/-! ## Amounts of change -/

theorem number_zero_ne : number (.float (.finite true 0 Binary64.representable_zero)) ≠
    number (.float (.finite false 0 Binary64.representable_zero)) := by
  simp [number, FloatLayout.text]

/-- Numbers of the same value and text are one: the two zeros differ in their sign. -/
theorem eq_of_number {m n : Number} (hs : m.same n = true) (ht : number m = number n) : m = n := by
  cases m with
  | int i =>
    cases n with
    | int j => simpa [Number.same] using hs
    | float y => cases hs
  | float x =>
    cases n with
    | int j => cases hs
    | float y =>
      cases x with
      | infinite a =>
        cases y with
        | infinite b => simpa [Number.same, Binary64.same] using hs
        | finite => cases hs
      | finite a q hq =>
        cases y with
        | infinite b => cases hs
        | finite b p hp =>
          simp only [Number.same, Binary64.same, Bool.and_eq_true, Bool.or_eq_true, beq_iff_eq] at hs
          obtain ⟨rfl, hab | rfl⟩ := hs
          · rw [hab]
          · cases a <;> cases b
            · rfl
            · exact absurd ht.symm number_zero_ne
            · exact absurd ht number_zero_ne
            · rfl

namespace Mutation

/-- The amount by which a record changes a pressure or a prominence. -/
def delta? : Json → Option Number
  | .obj members =>
    if text? members "type" ∈ [some "modify_pressure", some "adjust_prominence"] then
      (Record.get? members "delta").bind Json.number?
    else none
  | _ => none

theorem field_delta (n : Number) : Json.field "delta" (.num n) = [.line ["delta", number n]] := by
  rw [Body.field_of_plain (Body.language?_of_not_mem (by decide) _ _)]
  rfl

theorem number?_of_field {x y : Json} (ht : x.isTame = true) (h : Returns (Json.field "delta") x y) :
    y.number? = x.number? := by
  cases x with
  | num m =>
    obtain ⟨n, rfl, hs⟩ := Json.recovers_num.1 h.1
    rw [Json.reread_of_narrow (Json.every_self ((Json.isTame_iff _).1 ht).2.1)] at hs
    have htext := h.2 ht
    simp only [field_delta, List.cons.injEq, Node.line.injEq, and_true, true_and] at htext
    rw [eq_of_number hs htext]
  | _ =>
    have hnone := Json.isSome_number?_of_recovers h.1
    exact Option.not_isSome_iff_eq_none.1 (by rw [hnone]; exact Bool.false_ne_true)

theorem change_decodes {o : Record} (ht : (Json.obj o).isTame = true)
    (hchange : text? o "type" ∈ [some "modify_pressure", some "adjust_prominence"]) {n : Node}
    (hn : (Json.obj o).forms.mutation = some n) :
    n.Parses fun s => Gives (compile s s.nested) fun y => ∃ o' : Record, y = .obj o' ∧
      (o'.get? "delta").bind Json.number? = (o.get? "delta").bind Json.number? := by
  have hv := Json.isValid_of_isTame ht
  rw [Json.mutation_obj, Option.some.injEq] at hn
  -- on a line the sign goes into the operator; the least whole number stands in a block of fields
  cases hw : write? o o.forms with
  | some m =>
    rw [hw, Option.getD_some] at hn
    subst hn
    obtain ⟨k, htype, hk⟩ := write?_eq_some.1 hw
    have hnests : k.nests = false := by
      rw [htype] at hchange
      cases k with
      | forEachRelated | conditional => simp [Keyword.typeName] at hchange
      | _ => rfl
    refine (returns_statement hv htype hk hnests).imp fun s hs => (hs s.nested).imp ?_
    rintro _ ⟨o', rfl, hr, -⟩
    exact ⟨o', rfl, hr.bind_number? ht "delta" (by decide)⟩
  | none =>
    rw [hw, Option.getD_none] at hn
    subst hn
    have hfields : ∀ m ∈ o, FieldReturns m.1 m.2 := (Json.restored hv).fields o rfl
    refine (escapes.parses (Json.nodup_of_isValid hv) hfields).imp fun s hs => hs.imp ?_
    rintro _ ⟨o', rfl, ho⟩
    refine ⟨o', rfl, ?_⟩
    have hrel := ho.rel "delta"
    have htame : ∀ x, o.get? "delta" = some x → x.isTame = true := fun x hx => isTame_of_get? ht hx
    generalize o.get? "delta" = a at hrel htame ⊢
    generalize Record.get? o' "delta" = b at hrel ⊢
    cases hrel with
    | none => rfl
    | some h => exact number?_of_field (htame _ rfl) h

theorem item_decodes {o : Record} (ht : (Json.obj o).isTame = true) {n : Node}
    (hn : (Json.obj o).forms.mutation = some n) :
    n.Parses fun s => Gives (compile s s.nested) fun y => Json.Recovers (.obj o) y ∧
    delta? y = delta? (.obj o) := by
  have hreturns := (Json.restored (Json.isValid_of_isTame ht)).mutation n hn
  by_cases hchange : text? o "type" ∈ [some "modify_pressure", some "adjust_prominence"]
  · refine (hreturns.and (change_decodes ht hchange hn)).imp fun s hs => (hs.1.and hs.2).imp ?_
    rintro _ ⟨hr, o', rfl, hdelta⟩
    have htype := (alike_of_recovers ht hr.1).text? "type"
    exact ⟨hr.1, by simp only [delta?, htype, if_pos hchange, hdelta]⟩
  · refine hreturns.imp fun s hs => hs.imp fun y hr => ?_
    obtain ⟨o', rfl⟩ := Json.recovers_obj_exists hr.1
    have htype := (alike_of_recovers ht hr.1).text? "type"
    exact ⟨hr.1, by simp only [delta?, htype, if_neg hchange]⟩

end Mutation

/-- Mutations are compiled to what they were written from, without a report and whatever is bound.
Each change of a pressure or a prominence keeps its amount, to the last bit. -/
theorem mutations_decode {items : List Record} (h : ∀ o ∈ items, (Json.obj o).isTame = true) :
    ∃ ns, (Json.arr (items.map .obj)).forms.mutations = some ns ∧
    Decodes ns Mutation.compileAll fun ys =>
      Json.sameItems ys (items.map .obj) = true ∧
      ys.map Mutation.delta? = (items.map .obj).map Mutation.delta? := by
  let R (x y : Json) : Prop := x.Recovers y ∧ Mutation.delta? y = Mutation.delta? x
  have hitem : ∀ o ∈ items, ∀ n, (Json.obj o).forms.mutation = some n →
      n.Parses fun s => Gives (Mutation.compile s s.nested) (R (.obj o)) :=
    fun o ho _ => Mutation.item_decodes (h o ho)
  obtain ⟨ns, hns, hd⟩ :=
    list_decodes Forms.lists_mutations (fun o => by rw [Json.mutation_obj]; rfl) hitem
  refine ⟨ns, hns, hd.imp fun ys hys => ⟨?_, ?_⟩⟩
  · refine sameItems_of_recovers ?_ (hys.imp fun _ _ hr => hr.1)
    simpa only [List.forall_mem_map] using h
  · have hdeltas : List.Forall₂ (fun x y => Mutation.delta? y = Mutation.delta? x)
      (items.map .obj) ys :=
      hys.imp fun _ _ hr => hr.2
    exact List.forall₂_eq_eq_eq ▸ List.forall₂_map_left_iff.2
      (List.forall₂_map_right_iff.2 hdeltas.flip)

/-- The ends of the range, and a zero that is negative. -/
def changes : List Record :=
  [[("type", .str "modify_pressure"), ("pressureId", .str "unrest"),
    ("delta", .num (.int (-9223372036854775808)))],
    [("type", .str "modify_pressure"), ("pressureId", .str "unrest"),
      ("delta", .num (.int 9223372036854775807))],
    [("type", .str "adjust_prominence"), ("entity", .str "hero"),
      ("delta", .num (.float (.finite true 0 Binary64.representable_zero)))]]

theorem mutations_decode_changes : (∀ o ∈ changes, (Json.obj o).isTame = true) ∧
    ∃ ns, (Json.arr (changes.map .obj)).forms.mutations = some ns ∧
    Decodes ns Mutation.compileAll fun ys =>
      Json.sameItems ys (changes.map .obj) = true ∧
      ys.map Mutation.delta? =
        [some (.int (-9223372036854775808)), some (.int 9223372036854775807),
          some (.float (.finite true 0 Binary64.representable_zero))] := by
  have htame : ∀ o ∈ changes, (Json.obj o).isTame = true := by decide
  exact ⟨htame, mutations_decode htame⟩

end Worldbook
