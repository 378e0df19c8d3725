import Worldbook.Proofs.Bindings
import Worldbook.Proofs.Paths

/-!
# Every value comes back

The languages nest in each other, so that what they come back as is proved of a value in all its
places at once, from what it is of the values inside. The main result is `Json.restored`: a value
that JSON can hold comes back in each of its forms.
-/

namespace Worldbook

open Written CompileM

/-! ## Fields behind others -/

namespace Record

def without (o : Record) (skip : List String) : Record := o.filter fun m => !skip.contains m.1

variable {o r : Record} {skip : List String}

theorem mem_keys_without {key : String} : key ∈ (o.without skip).keys ↔ key ∈ o.keys ∧ key ∉ skip := by
  rw [without, mem_keys_filter (o := o) (p := fun name => !skip.contains name), Bool.not_eq_true',
    List.contains_eq_mem, decide_eq_false_iff_not]

theorem get?_without (key : String) :
    (o.without skip).get? key = if key ∈ skip then none else o.get? key := by
  rw [without, get?_filter o (fun key => !skip.contains key)]
  by_cases hk : key ∈ skip <;> simp [hk]

theorem nodup_front (hn : o.keys.Nodup) (hs : skip.Nodup) (hkeys : r.keys = (o.without skip).keys) :
    (o.reread skip ++ r).keys.Nodup := by
  rw [keys_append, hkeys]
  refine List.Nodup.append (nodup_reread hs) (nodup_filter hn _) fun key hk hw => ?_
  rw [keys_reread] at hk
  exact (mem_keys_without.1 hw).2 (List.mem_of_mem_filter hk)

theorem without_front (hkeys : r.keys = (o.without skip).keys) :
    (o.reread skip ++ r).without skip = r := by
  rw [without, List.filter_append, List.filter_eq_nil_iff.2, List.filter_eq_self.2, List.nil_append]
  · intro m hm
    have hkey := List.mem_map_of_mem (f := Prod.fst) hm
    rw [← keys, hkeys] at hkey
    simpa using (mem_keys_without.1 hkey).2
  · intro m hm
    have hkey := List.mem_map_of_mem (f := Prod.fst) hm
    rw [← keys, keys_reread] at hkey
    simpa using List.mem_of_mem_filter hkey

end Record

theorem recovers_front {o r : Record} {skip : List String} (hv : (Json.obj o).isValid = true)
    (hs : skip.Nodup) (hkeys : r.keys = (o.without skip).keys)
    (h : ∀ key, Option.Rel Json.Recovers ((o.without skip).get? key) (r.get? key)) :
    Json.Recovers (.obj o) (.obj (o.reread skip ++ r)) := by
  have hn := Json.nodup_of_isValid hv
  refine Json.recovers_of_get? hn (Record.nodup_front hn hs hkeys) fun key => ?_
  have hkey := h key
  rw [Record.get?_without] at hkey
  rw [Record.get?_append, Record.get?_reread]
  by_cases hk : key ∈ skip
  · have hnone : r.get? key = none := by
      rw [Record.get?_eq_none_iff, hkeys]
      exact fun hm => (Record.mem_keys_without.1 hm).2 hk
    rw [if_pos hk, hnone, Option.or_none]
    cases hx : o.get? key with
    | none => exact .none
    | some x => exact .some (Json.recovers_reread (isValid_of_get? hv hx))
  · rw [if_neg hk] at hkey ⊢
    rwa [Option.none_or]

section
variable {o : Record} {skip : List String}

theorem recovers_pairs (hv : (Json.obj o).isValid = true) (hs : skip.Nodup) :
    Json.Recovers (.obj o) (.obj (o.reread skip ++ Json.rereadMembers (o.without skip))) := by
  refine recovers_front hv hs (Json.keys_rereadMembers _) fun key => ?_
  rw [Json.get?_rereadMembers]
  cases hx : (o.without skip).get? key with
  | none => exact .none
  | some x =>
    have hm := List.mem_of_mem_filter (Record.mem_of_get? hx)
    exact .some (Json.recovers_reread (Json.isValid_members hv _ hm))

theorem pairs?_front (ht : (Json.obj o).isTame = true) :
    pairs? ((o.reread skip ++ Json.rereadMembers (o.without skip)).without skip) =
      pairs? (o.without skip) := by
  rw [Record.without_front (Json.keys_rereadMembers _)]
  exact pairs?_reread fun m hm => (Json.every_obj.1 ht).2 m (List.mem_of_mem_filter hm)

theorem recovers_body {r : Record} (hv : (Json.obj o).isValid = true) (hs : skip.Nodup)
    (h : FieldsReturned Json.field (o.without skip) r) :
    Json.Recovers (.obj o) (.obj (o.reread skip ++ r)) :=
  recovers_front hv hs h.keys h.get?

theorem body_front {r : Record} (ht : (Json.obj o).isTame = true)
    (h : FieldsReturned Json.field (o.without skip) r) :
    Json.body (o.reread skip ++ r) skip = Json.body o skip := by
  have hall : ∀ r : Record, Json.body r skip =
    ((r.without skip).map fun m => Json.field m.1 m.2).flatten := by
    intro r
    rw [Json.body, ← Record.without, List.flatMap_def]
  rw [hall, hall, Record.without_front h.keys, h.map fun m hm =>
    (Json.every_obj.1 ht).2 m (List.mem_of_mem_filter hm)]

theorem body_returns_behind (hn : o.keys.Nodup) (h : ∀ m ∈ o, FieldReturns m.1 m.2) :
    ParsesAll (Json.body o skip) fun ss => ∀ r : Record, (∀ key ∈ r.keys, key ∈ skip) → r.keys.Nodup →
      Yields (Body.fields (Statement.children ss) r) fun r' => ∃ o', r' = r ++ o' ∧
        FieldsReturned Json.field (o.without skip) o' := by
  refine (fields_return fun m hm => h m (List.mem_of_mem_filter hm)).imp fun ss hss r hr hn' => hss r ?_
  rw [Record.keys_append]
  exact List.Nodup.append hn' (Record.nodup_filter hn _) fun key hk hw =>
    (Record.mem_keys_without.1 hw).2 (hr key hk)

end

/-! ## New entities -/

namespace Body

theorem filter_ne_eq_without (o : Record) (key : String) : o.filter (·.1 != key) = o.without [key] := by
  refine List.filter_congr fun m _ => ?_
  rw [List.contains_cons, List.contains_nil, Bool.or_false]
  rfl

theorem creation?_eq_some {o : Record} {body : List Node} {n : Node} : creation? o body = some n ↔
    ∃ name, text? o "entityRef" = some name ∧ isBinding name.toList = true ∧
      ((∃ ws, pairs? (o.without ["entityRef"]) = some ws ∧ .line ("create" :: name :: ws) = n) ∨
        (pairs? (o.without ["entityRef"]) = none ∧ .block ["create", name] body = n)) := by
  have hname : ∀ name, (text? o "entityRef").bind alias? = some name ↔
      text? o "entityRef" = some name ∧ isBinding name.toList = true := by
    intro name
    cases text? o "entityRef" with
    | none => simp
    | some s =>
      simp only [Option.bind_some, alias?, Option.ite_none_right_eq_some, Option.some.injEq]
      constructor
      · rintro ⟨hb, rfl⟩
        exact ⟨rfl, hb⟩
      · rintro ⟨rfl, hb⟩
        exact ⟨hb, rfl⟩
  rw [creation?, filter_ne_eq_without, Option.bind_eq_bind, Option.bind_eq_some_iff]
  simp only [hname, and_assoc]
  refine exists_congr fun name => and_congr_right fun _ => and_congr_right fun _ => ?_
  cases pairs? (o.without ["entityRef"]) <;> simp

theorem creation_returns {o : Record} (hv : (Json.obj o).isValid = true)
    (hfields : ∀ m ∈ o, FieldReturns m.1 m.2) {n : Node} (hn : (Json.obj o).forms.creation = some n) :
    n.Parses (Adds part "creation" (fun z => z.forms.creation) (.obj o)) := by
  rw [Json.creation_obj] at hn
  have hstatement := hn
  obtain ⟨name, hname, hbinding, hform⟩ := creation?_eq_some.1 hn
  have hfront : o.reread ["entityRef"] = [textField "entityRef" name] := Record.reread_text hname []
  have hnodup := Json.nodup_of_isValid hv
  have hdeclare := yields_declare (hasSigil_of_isBinding hbinding)
  rcases hform with ⟨ws, hws, rfl⟩ | ⟨hp, rfl⟩
  -- On a line the fields are pairs behind the name.
  · have hvalid : ∀ m ∈ o.without ["entityRef"], m.2.isValid = true :=
      fun m hm => Json.isValid_members hv m (List.mem_of_mem_filter hm)
    refine (Node.parses_words (by decide) (by decide) (by decide)
      (.cons (word_binding hbinding) (forall₂_pairs hvalid hws))).imp ?_
    rintro s ⟨vs, hs, hvs⟩ r
    rcases hvs with _ | ⟨hfirst, hmore⟩
    have hpart : part (s, s.nested) r = orElseKeep (creation s s.nested r) r := by
      generalize hvs : _ :: _ = vs at hs
      cases hs with
      | bare => cases hvs
      | field labels value span => rfl
    have hpairs := pairFields_of hws hmore s.span [textField "entityRef" name]
      (by rw [← hfront]; exact Record.nodup_front hnodup (by simp) rfl)
    rw [hpart]
    refine yields_orElseKeep ?_
    simp only [creation, hs.positional, hs.isBlock, rowText_eq hfirst.text?, pure_bind,
      Bool.false_eq_true, if_false]
    refine (gives_lift hdeclare).bind ?_
    rintro _ rfl
    rw [hpairs, pure_bind, ← hfront]
    refine gives_pure ⟨_, rfl, recovers_pairs hv (by simp), fun ht => ?_⟩
    simp only [Json.creation_obj, hstatement]
    refine creation?_eq_some.2 ⟨_, ?_, hbinding, .inl ⟨ws, by rw [pairs?_front ht, hws], rfl⟩⟩
    rw [(alike_of_recovers ht (recovers_pairs hv (by simp))).text?, hname]
  -- In a block they are the fields of a body, and are compiled on top of the name.
  · refine (Node.parses_named_block (by decide) (by decide) (by decide)
      (.cons (word_binding hbinding) .nil) (body_returns_behind hnodup hfields)).imp ?_
    rintro _ ⟨labels, ss, span, rfl, hlabels, hss⟩ r
    rcases hlabels with _ | ⟨hfirst, _ | _⟩
    rw [Statement.nested_block]
    refine yields_orElseKeep ?_
    simp only [creation, Statement.positional, Statement.isBlock, rowText_eq hfirst.text?,
      pure_bind, if_true]
    refine (gives_lift hdeclare).bind ?_
    rintro _ rfl
    rw [← hfront]
    refine (gives_lift
      (hss (o.reread ["entityRef"]) (by simp [hfront, textField]) (by simp [hfront]))).bind ?_
    rintro _ ⟨o', rfl, ho⟩
    refine gives_pure ⟨_, rfl, recovers_body hv (by simp) ho, fun ht => ?_⟩
    have ha := alike_of_recovers ht (recovers_body hv (by simp) ho)
    simp only [Json.creation_obj, hstatement]
    refine creation?_eq_some.2 ⟨_, by rw [ha.text?, hname], hbinding,
      .inr ⟨?_, by rw [body_front ht ho]⟩⟩
    rw [← Option.not_isSome_iff_eq_none, Record.without,
      (ha.filter fun key => !(["entityRef"].contains key)).isSome_pairs?,
      ← Record.without, hp]
    exact Bool.false_ne_true

/-! ## Relationships -/

theorem relationship_returns {x : Json} (hv : x.isValid = true) {n : Node}
    (hn : (x.object?.bind fun o => relationship? "rel" o []) = some n) :
    n.Parses (Adds part "relationships" (fun z => z.object?.bind fun o =>
      relationship? "rel" o []) x) := by
  obtain ⟨o, ho, hn⟩ := Option.bind_eq_some_iff.1 hn
  obtain rfl := Json.object?_eq_some.1 ho
  have hr := rewritten_relationship hv List.nodup_nil (by simp)
  rw [Record.reread_nil, List.nil_append] at hr
  refine (parses_relationship (by decide) hv hn).imp ?_
  rintro _ ⟨⟨label, kind, source, target, vs, span, rfl⟩, hs⟩ r
  rw [part]
  refine yields_run (hs false) ?_
  rintro _ rfl
  refine yields_pure ⟨_, rfl, hr.recovers hv, fun ht => ?_⟩
  have hagain := relationship?_restored ht List.nodup_nil (by simp) "rel"
  rw [Record.reread_nil, List.nil_append] at hagain
  simpa only [Json.object?, Option.bind_some] using hagain

/-! ## Fields -/

def BlockReturns (key : String) (f : Forms → Option (List Node)) (x : Json) : Prop :=
  ∀ ns, f x.forms = some ns → ParsesAll ns fun ss => ∀ span (r : Record), key ∉ r.keys →
    Yields (part (.block key false [] ss span, .ofBody (Statement.children ss)) r) fun r' =>
      ∃ y, r' = r ++ [(key, y)] ∧
      Returns (fun z => f z.forms) x y

theorem block_of_list {compile : Statement → Nested → Attempt Json} {key : String}
    {f : Forms → Option (List Node)} {x : Json} (h : ListReturns compile f x)
    (hpart : ∀ ss span r, part (.block key false [] ss span, .ofBody (Statement.children ss)) r =
      collect (fun (c : Child) => compile c.1 c.2) (Statement.children ss) >>= fun ys =>
      pure (r.extend key ys)) :
    BlockReturns key f x := by
  refine fun ns hns => (h ns hns).imp fun ss hss span r hr => ?_
  rw [hpart]
  exact hss.bind fun ys hys => yields_pure ⟨_, Record.extend_of_not_mem hr ys, hys⟩

theorem block_of_selection {key : String} {x : Json} (h : Selector.SelectionReturns x)
    (hpart : ∀ ss span r, part (.block key false [] ss span, .ofBody (Statement.children ss)) r =
      Selector.compile (Statement.children ss) [] >>= fun o => setField key (.obj o) span r) :
    BlockReturns key Forms.selection x := by
  refine fun ns hns => (h ns hns).imp fun ss hss span r hr => ?_
  rw [hpart]
  refine hss.bind fun o ho => ?_
  rw [setField_eq hr]
  exact yields_pure ⟨_, rfl, ho⟩

theorem block_returns {key : String} {f : Forms → Option (List Node)} (hb : Blocks key f) {x : Json}
    (hconditions : ListReturns Condition.compile Forms.conditions x)
    (hfilters : ListReturns Filter.compile Forms.filters x)
    (hmutations : ListReturns Mutation.compile Forms.mutations x)
    (hselection : Selector.SelectionReturns x) : BlockReturns key f x := by
  cases hb with
  | applicability | conditions => exact block_of_list hconditions fun _ _ _ => rfl
  | filters | preferFilters => exact block_of_list hfilters fun _ _ _ => rfl
  | mutations | effects | stateUpdates => exact block_of_list hmutations fun _ _ _ => rfl
  | selection | actor | target => exact block_of_selection hselection fun _ _ _ => rfl

theorem Blocks.leads {key : String} {f : Forms → Option (List Node)} (hb : Blocks key f) :
    Leads key ∧ key ∉ lineWords := by
  cases hb <;> exact ⟨⟨by decide, by decide, by decide⟩, by decide⟩

theorem field_of_plain {key : String} {x : Json} (h : language? key x x.forms = none) :
    Json.field key x = [plain (plainKey key) key x x.forms] := by
  rw [Json.field, statements, h]
  rfl

theorem field_of_language {key : String} {x : Json} {ns : List Node}
    (h : language? key x x.forms = some ns) : Json.field key x = ns := by
  rw [Json.field, statements, h]
  rfl

theorem heads_plainKey (key : String) : Heads (plainKey key) key part := by
  rw [plainKey]
  split
  · next h =>
    rw [Bool.and_eq_true, Bool.not_eq_true', List.contains_eq_mem, decide_eq_false_iff_not] at h
    exact heads_plain h.1 h.2
  · exact heads_quoted key

theorem fields_singleton (s : Statement) (r : Record) :
    fields (Statement.children [s]) r = part (s, s.nested) r := by
  rw [Statement.children_cons, Statement.children_nil, fields, thread]
  exact bind_pure _

theorem field_returns_plain {key : String} {x : Json} (hx : x.isValid = true)
    (hl : language? key x x.forms = none) (hfields : ∀ o, x = .obj o → ∀ m ∈ o, FieldReturns m.1 m.2) :
    FieldReturns key x := by
  rw [FieldReturns, field_of_plain hl]
  refine (plain_returns (heads_plainKey key) hx hfields).imp fun s hs r hr => ?_
  rw [fields_singleton]
  refine (hs r hr).imp ?_
  rintro _ ⟨y, rfl, hy⟩
  refine ⟨y, rfl, hy.1, fun ht => ?_⟩
  have hl' : language? key y y.forms = none := by
    rw [← Option.not_isSome_iff_eq_none, isSome_language? ⟨ht, hy.1⟩, hl]
    exact Bool.false_ne_true
  rw [field_of_plain hl, field_of_plain hl']
  exact congrArg (fun n => [n]) (hy.2 ht)

theorem field_returns_language {key : String} {x : Json} {ns : List Node}
    (hl : language? key x x.forms = some ns) (h : ParsesAll ns fun ss => ∀ r : Record, key ∉ r.keys →
      Yields (fields (Statement.children ss) r) fun r' => ∃ y, r' = r ++ [(key, y)] ∧
        Returns (fun z => language? key z z.forms) x y) : FieldReturns key x := by
  rw [FieldReturns, field_of_language hl]
  refine h.imp fun ss hss r hr => (hss r hr).imp ?_
  rintro _ ⟨y, rfl, hy⟩
  exact ⟨y, rfl, hy.1, fun ht => by rw [field_of_language hl, field_of_language ((hy.2 ht).trans hl)]⟩

theorem field_returns_block {key : String} {f : Forms → Option (List Node)} (hb : Blocks key f)
    {x : Json} {ns : List Node} (hl : language? key x x.forms = some ns) (h : BlockReturns key f x) :
    FieldReturns key x := by
  refine field_returns_language hl ?_
  rw [language?_of_blocks hb, Option.map_eq_some_iff] at hl
  obtain ⟨body, hbody, rfl⟩ := hl
  refine (hb.leads.1.parses_block hb.leads.2 (h body hbody)).imp ?_
  rintro _ ⟨ss, span, rfl, hss⟩ r hr
  rw [fields_singleton, Statement.nested_block]
  refine (hss span r hr).imp ?_
  rintro _ ⟨y, rfl, hy⟩
  refine ⟨y, rfl, hy.1, fun ht => ?_⟩
  simp only [language?_of_blocks hb]
  exact congrArg (Option.map _) (hy.2 ht)

theorem field_returns_variables {x : Json} (hx : x.isValid = true) {ns : List Node}
    (hl : language? "variables" x x.forms = some ns)
    (h : ∀ o, x = .obj o → ∀ m ∈ o, Selector.BindingReturns m.1 m.2) : FieldReturns "variables" x := by
  refine field_returns_language hl ?_
  cases x with
  | obj o =>
    cases o with
    | nil => cases hl
    | cons m o =>
      refine (Selector.bindings_return (Json.nodup_of_isValid hx) (by simp) (h _ rfl) hl).imp
        fun ss hss r hr =>
        (hss r hr).imp ?_
      rintro _ ⟨y, rfl, hy⟩
      refine ⟨y, rfl, hy.1, fun ht => ?_⟩
      obtain ⟨o', rfl⟩ := Json.recovers_obj_exists hy.1
      have hne : o'.isEmpty = false := by
        have := (alike_of_recovers ht hy.1).length
        cases o' with
        | nil => cases this
        | cons _ _ => rfl
      simp only [language?_variables, hne, List.isEmpty_cons, Bool.false_eq_true, if_false]
      exact hy.2 ht
  | _ => cases hl

theorem returns_of_adds {key : String} {form : Json → Option Node} {items : List Json}
    (hne : items ≠ []) (h : ∀ v ∈ items, ∀ n, form v = some n → n.Parses (Adds part key form v))
    {ns : List Node} (hns : items.mapM form = some ns) :
    ParsesAll ns fun ss => ∀ r : Record, key ∉ r.keys →
      Yields (fields (Statement.children ss) r) fun r' => ∃ ys, r' = r ++ [(key, .arr ys)] ∧ ys ≠ [] ∧
        Json.Recovers (.arr items) (.arr ys) ∧
        ((Json.arr items).isTame = true → ys.mapM form = items.mapM form) := by
  refine (adds_return h hns).imp fun ss hss r hr => (hss r hr).imp ?_
  rintro _ (⟨he, -⟩ | ⟨-, ys, rfl, hys⟩)
  · exact absurd he hne
  · refine ⟨ys, rfl, ?_, Json.recoversItems_iff.2 (hys.imp fun _ _ h => h.1), fun ht => ?_⟩
    · rintro rfl
      cases hys
      exact hne rfl
    · exact mapM_of_returns hys (Json.every_arr.1 ht).2

theorem field_returns_creation {x : Json} {ns : List Node}
    (hl : language? "creation" x x.forms = some ns)
    (h : ∀ items, x = .arr items → ∀ v ∈ items, ∀ n, v.forms.creation = some n →
      n.Parses (Adds part "creation" (fun z => z.forms.creation) v)) : FieldReturns "creation" x := by
  refine field_returns_language hl ?_
  cases x with
  | arr items =>
    cases items with
    | nil => cases hl
    | cons v items =>
      rw [language?_creation, List.isEmpty_cons, if_neg (by simp), Forms.lists_creations.arr] at hl
      refine (returns_of_adds (by simp) (h _ rfl) hl).imp fun ss hss r hr => (hss r hr).imp ?_
      rintro _ ⟨ys, rfl, hne, hr, hagain⟩
      refine ⟨_, rfl, hr, fun ht => ?_⟩
      simp only [language?_creation, Forms.lists_creations.arr, List.isEmpty_iff, hne, hagain ht]
      simp
  | _ => cases hl

theorem field_returns_relationships {x : Json} (hx : x.isValid = true) {ns : List Node}
    (hl : language? "relationships" x x.forms = some ns) : FieldReturns "relationships" x := by
  refine field_returns_language hl ?_
  cases x with
  | arr items =>
    cases items with
    | nil => cases hl
    | cons v items =>
      rw [language?_relationships, List.isEmpty_cons, if_neg (by simp)] at hl
      refine (returns_of_adds (by simp) (fun v hv n =>
        relationship_returns (Json.isValid_items hx v hv)) hl).imp fun ss hss r hr => (hss r hr).imp ?_
      rintro _ ⟨ys, rfl, hne, hr, hagain⟩
      refine ⟨_, rfl, hr, fun ht => ?_⟩
      have : relationships? ys = relationships? (v :: items) := hagain ht
      simp only [language?_relationships, List.isEmpty_iff, hne, this]
      simp
  | _ => cases hl

end Body

/-! ## All places of a value -/

structure Json.Restored (x : Json) : Prop where
  field : ∀ key, FieldReturns key x
  fields : ∀ o, x = .obj o → ∀ m ∈ o, FieldReturns m.1 m.2
  conditions : ListReturns Condition.compile Forms.conditions x
  filters : ListReturns Filter.compile Forms.filters x
  mutations : ListReturns Mutation.compile Forms.mutations x
  constraints : ListReturns Path.constraint Forms.constraints x
  condition : ItemReturns Condition.compile Forms.condition x
  filter : ItemReturns Filter.compile Forms.filter x
  mutation : ItemReturns Mutation.compile Forms.mutation x
  constraint : ItemReturns Path.constraint Forms.constraint x
  step : Path.StepReturns x
  steps : ∀ items, x = .arr items → ∀ v ∈ items, Path.StepReturns v
  path : PathReturns x
  selection : Selector.SelectionReturns x
  binding : ∀ name, Selector.BindingReturns name x
  creation : ∀ n, x.forms.creation = some n →
    n.Parses (Adds Body.part "creation" (fun z => z.forms.creation) x)

namespace Json

/-- An object comes back in the places of an object, if its members come back. -/
theorem object_restored {o : Record} (hx : (Json.obj o).isValid = true) (h : ∀ m ∈ o, Restored m.2) :
    ItemReturns Condition.compile Forms.condition (.obj o) ∧
      ItemReturns Filter.compile Forms.filter (.obj o) ∧
      ItemReturns Mutation.compile Forms.mutation (.obj o) ∧
      ItemReturns Path.constraint Forms.constraint (.obj o) ∧
      Path.StepReturns (.obj o) ∧ PathReturns (.obj o) ∧ Selector.SelectionReturns (.obj o) ∧
      ∀ name, Selector.BindingReturns name (.obj o) := by
  have hget : ∀ key x, o.get? key = some x → Restored x := fun key x hx => h _ (Record.mem_of_get? hx)
  have hfields : ∀ m ∈ o, FieldReturns m.1 m.2 := fun m hm => (h m hm).field m.1
  refine ⟨?_, ?_, ?_, ?_, ?_, ?_, ?_, ?_⟩
  · exact Condition.condition_returns hx (fun key x hk => (hget key x hk).conditions)
      (fun key x hk => (hget key x hk).path) hfields
  · exact Filter.filter_returns hx (fun key x hk => (hget key x hk).path) hfields
  · exact Mutation.mutation_returns hx (fun key x hk => (hget key x hk).conditions)
      (fun key x hk => (hget key x hk).mutations) hfields
  · exact Path.constraint_returns hx hfields
  · exact Path.step_returns hx fun key x hk => (hget key x hk).filters
  · exact Path.path_returns hx (fun key items hk => (hget key _ hk).steps items rfl)
      fun key x hk => (hget key x hk).constraints
  · exact Selector.selection_returns (nodup_of_isValid hx) fun m hm =>
      Selector.field_selects m.1 (isValid_members hx m hm) (h m hm).filters (h m hm).fields
  · exact Selector.binding_returns hx fun key x hk => (hget key x hk).selection

/-- A value comes back in every place, if the values inside it do. -/
theorem restored_of_inside {x : Json} (hx : x.isValid = true)
    (hitems : ∀ items, x = .arr items → ∀ v ∈ items, Restored v)
    (hmembers : ∀ o, x = .obj o → ∀ m ∈ o, Restored m.2) : Restored x := by
  have hfields : ∀ o, x = .obj o → ∀ m ∈ o, FieldReturns m.1 m.2 := fun o ho m hm =>
    (hmembers o ho m hm).field m.1
  have hconditions : ListReturns Condition.compile Forms.conditions x :=
    list_returns Forms.lists_conditions fun items he v hv => (hitems items he v hv).condition
  have hfilters : ListReturns Filter.compile Forms.filters x :=
    list_returns Forms.lists_filters fun items he v hv => (hitems items he v hv).filter
  have hmutations : ListReturns Mutation.compile Forms.mutations x :=
    list_returns Forms.lists_mutations fun items he v hv => (hitems items he v hv).mutation
  have hconstraints : ListReturns Path.constraint Forms.constraints x :=
    list_returns Forms.lists_constraints fun items he v hv => (hitems items he v hv).constraint
  -- what is no object has none of the forms of an object
  have hobject : (∀ o, x ≠ .obj o) → x.forms.condition = none ∧ x.forms.filter = none ∧
    x.forms.mutation = none ∧
      x.forms.constraint = none ∧ x.forms.step = none ∧ x.forms.path = none ∧ x.forms.selection = none ∧
      (∀ name, x.forms.binding name = none) ∧ x.forms.creation = none := by
    intro hno
    cases x with
    | obj o => exact absurd rfl (hno o)
    | _ => exact ⟨rfl, rfl, rfl, rfl, rfl, rfl, rfl, fun _ => rfl, rfl⟩
  have hplaces : ItemReturns Condition.compile Forms.condition x ∧
    ItemReturns Filter.compile Forms.filter x ∧
      ItemReturns Mutation.compile Forms.mutation x ∧ ItemReturns Path.constraint Forms.constraint x ∧
      Path.StepReturns x ∧ PathReturns x ∧ Selector.SelectionReturns x ∧
      ∀ name, Selector.BindingReturns name x := by
    by_cases ho : ∃ o, x = .obj o
    · obtain ⟨o, rfl⟩ := ho
      exact object_restored hx (hmembers o rfl)
    · obtain ⟨h1, h2, h3, h4, h5, h6, h7, h8, -⟩ := hobject (not_exists.1 ho)
      refine ⟨?_, ?_, ?_, ?_, ?_, ?_, ?_, fun name => ?_⟩ <;> intro n hn <;> simp_all
  obtain ⟨hcondition, hfilter, hmutation, hconstraint, hstep, hpath, hselection, hbinding⟩ := hplaces
  refine ⟨fun key => ?_, hfields, hconditions, hfilters, hmutations, hconstraints, hcondition,
    hfilter, hmutation, hconstraint, hstep, fun items he v hv => (hitems items he v hv).step, hpath,
    hselection, hbinding, fun n hn => ?_⟩
  · cases hl : Body.language? key x x.forms with
    | none => exact Body.field_returns_plain hx hl hfields
    | some ns =>
      have hk : key ∈ Body.languageKeys := by
        by_contra hk
        rw [Body.language?_of_not_mem hk] at hl
        cases hl
      rcases Body.mem_languageKeys hk with ⟨f, hb⟩ | rfl | rfl | rfl
      · exact Body.field_returns_block hb hl
          (Body.block_returns hb hconditions hfilters hmutations hselection)
      · exact Body.field_returns_variables hx hl fun o ho m hm => (hmembers o ho m hm).binding m.1
      · exact Body.field_returns_creation hl fun items he v hv => (hitems items he v hv).creation
      · exact Body.field_returns_relationships hx hl
  · by_cases ho : ∃ o, x = .obj o
    · obtain ⟨o, rfl⟩ := ho
      exact Body.creation_returns hx (hfields o rfl) hn
    · rw [(hobject (not_exists.1 ho)).2.2.2.2.2.2.2.2] at hn
      cases hn

/-- Every value that JSON can hold comes back in all its places. -/
theorem restored {x : Json} (hx : x.isValid = true) : Restored x := by
  induction x using Json.induction with
  | arr items ih =>
    refine restored_of_inside hx (fun items' he v hv => ?_) (fun o ho => by cases ho)
    cases he
    exact ih v hv (isValid_items hx v hv)
  | obj o ih =>
    refine restored_of_inside hx (fun items he => by cases he) (fun o' ho m hm => ?_)
    cases ho
    exact ih m hm (isValid_members hx m hm)
  | _ => exact restored_of_inside hx (fun items he => by cases he) (fun o ho => by cases ho)

end Json

end Worldbook
