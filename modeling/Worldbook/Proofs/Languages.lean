import Worldbook.Proofs.Bodies

/-!
# Lists of a language

Conditions, filters, mutations and path constraints are lists of statements, each of which comes
back as its record. A record without a statement of its own is a block of its fields, and stays one:
whether it has a statement is the same for what it comes back as.
-/

namespace Worldbook

open Written CompileM

def ItemReturns (compile : Statement → Nested → Attempt Json) (item : Forms → Option Node) (x : Json) :
    Prop :=
  ∀ n, item x.forms = some n → n.Parses fun s =>
    Gives (compile s s.nested) (Returns (fun z => item z.forms) x)

def ListReturns (compile : Statement → Nested → Attempt Json) (list : Forms → Option (List Node))
    (x : Json) : Prop :=
  ∀ ns, list x.forms = some ns → ParsesAll ns fun ss =>
    Yields (collect (fun (c : Child) => compile c.1 c.2) (Statement.children ss)) fun ys =>
      Returns (fun z => list z.forms) x (.arr ys)

/-! ## Lists -/

theorem yields_collect_cons {α β : Type} (attempt : α → Attempt β) {x : α} {xs : List α} {P : β → Prop}
    {Q : List β → Prop} (hx : Gives (attempt x) P) (hxs : Yields (collect attempt xs) Q) :
    Yields (collect attempt (x :: xs)) fun ys => ∃ y more, ys = y :: more ∧ P y ∧ Q more := by
  rw [collect]
  refine yields_run hx fun y hy => hxs.bind fun more hmore => yields_pure ⟨y, more, rfl, hy, hmore⟩

theorem items_collect {compile : Statement → Nested → Attempt Json} {item : Forms → Option Node}
    {R : Json → Json → Prop} {items : List Json}
    (h : ∀ v ∈ items, ∀ n, item v.forms = some n → n.Parses fun s => Gives (compile s s.nested) (R v))
    {ns : List Node} (hns : (items.mapM fun v => item v.forms) = some ns) :
    ParsesAll ns fun ss =>
    Yields (collect (fun (c : Child) => compile c.1 c.2) (Statement.children ss)) fun ys =>
      List.Forall₂ R items ys := by
  induction items generalizing ns with
  | nil =>
    cases hns
    exact yields_pure .nil
  | cons v items ih =>
    obtain ⟨n, more, hn, hmore, rfl⟩ := mapM_cons_eq_some.1 hns
    refine (h v (List.mem_cons_self ..) n hn).imp fun s hs =>
      (ih (fun v hv => h v (List.mem_cons_of_mem _ hv)) hmore).imp fun ss hss => ?_
    simp only [Statement.children_cons]
    refine (yields_collect_cons (fun (c : Child) => compile c.1 c.2) hs hss).imp ?_
    rintro _ ⟨y, ys, rfl, hy, hys⟩
    exact .cons hy hys

theorem list_returns {compile : Statement → Nested → Attempt Json} {list : Forms → Option (List Node)}
    {item : Forms → Option Node} (hl : Forms.Lists list item) {x : Json}
    (h : ∀ items, x = .arr items → ∀ v ∈ items, ItemReturns compile item v) :
    ListReturns compile list x := by
  intro ns hns
  cases hx : x.array? with
  | none =>
    rw [hl.other x hx] at hns
    cases hns
  | some items =>
    obtain rfl := Json.array?_eq_some.1 hx
    rw [hl.arr] at hns
    refine (items_collect (h items rfl) hns).imp fun ss hss => hss.imp fun ys hys => ⟨?_, fun ht => ?_⟩
    · exact Json.recoversItems_iff.2 (hys.imp fun _ _ h => h.1)
    · simp only [hl.arr]
      exact mapM_of_returns hys (Json.every_arr.1 ht).2

/-! ## Statements of an object -/

/-- The statement is compiled to an object that recovers the record and is
written in the same way. -/
def Rebuilds {α : Type} (compile : Statement → Nested → Attempt Json) (write : Record → Option α)
    (o : Record) (a : α) (s : Statement) : Prop :=
  Gives (compile s s.nested) fun y => ∃ o' : Record, y = .obj o' ∧ Json.Recovers (.obj o) (.obj o') ∧
    ((Json.obj o).isTame = true → write o' = some a)

theorem Leads.parses_block {word : String} {body : List Node} {P : List Statement → Prop}
    (hw : Leads word) (hl : word ∉ lineWords) (hbody : ParsesAll body P) :
    (Node.block [word] body).Parses fun s => ∃ ss span, s = .block word false [] ss span ∧ P ss := by
  refine (Node.parses_named_block hw.isName hw.notSpecial hl .nil hbody).imp ?_
  rintro _ ⟨labels, ss, span, rfl, hlabels, hss⟩
  cases hlabels
  exact ⟨ss, span, rfl, hss⟩

/-- A block of fields is compiled as the object of the fields. -/
structure Escapes (compile : Statement → Nested → Attempt Json) (word : String) : Prop where
  leads : Leads word
  notLine : word ∉ lineWords
  compile : ∀ ss span nested, compile (.block word false [] ss span) nested = do
    return .obj (← nested.fields [])

theorem Escapes.parses {compile : Statement → Nested → Attempt Json} {word : String}
    (he : Escapes compile word) {o : Record} (hn : o.keys.Nodup)
    (hfields : ∀ m ∈ o, FieldReturns m.1 m.2) : (Node.block [word] (Json.body o [])).Parses fun s =>
    Gives (compile s s.nested) fun y =>
      ∃ o', y = .obj o' ∧ FieldsReturned Json.field o o' := by
  refine (he.leads.parses_block he.notLine (body_returns hn hfields)).imp ?_
  rintro _ ⟨ss, span, rfl, hss⟩
  rw [he.compile, Statement.nested_block]
  exact (gives_lift hss).bind fun o' ho => gives_pure ⟨o', rfl, ho⟩

theorem item_returns {compile : Statement → Nested → Attempt Json} {item : Forms → Option Node}
    {word : String} {write : Record → Option Node} (he : Escapes compile word)
    (hitem : ∀ r, item (Json.obj r).forms = some ((write r).getD (.block [word] (Json.body r []))))
    {o : Record} (hv : (Json.obj o).isValid = true) (hfields : ∀ m ∈ o, FieldReturns m.1 m.2)
    (hsome : ∀ {o'}, Alike o o' → (write o').isSome = (write o).isSome)
    (hwrite : ∀ n, write o = some n → n.Parses (Rebuilds compile write o n)) :
    ItemReturns compile item (.obj o) := by
  intro n hn
  rw [hitem, Option.some.injEq] at hn
  cases hw : write o with
  | some m =>
    rw [hw, Option.getD_some] at hn
    subst hn
    refine (hwrite m hw).imp fun s hs => hs.imp ?_
    rintro _ ⟨o', rfl, hr, hagain⟩
    refine ⟨hr, fun ht => ?_⟩
    simp only [hitem, hagain ht, hw, Option.getD_some]
  | none =>
    rw [hw, Option.getD_none] at hn
    subst hn
    have hnodup := Json.nodup_of_isValid hv
    refine (he.parses hnodup hfields).imp fun s hs => hs.imp ?_
    rintro _ ⟨o', rfl, ho⟩
    refine ⟨ho.recovers hnodup, fun ht => ?_⟩
    have hnone : write o' = none := by
      rw [← Option.not_isSome_iff_eq_none, hsome (alike_of_recovers ht (ho.recovers hnodup)), hw]
      exact nofun
    simp only [hitem, hw, hnone, ho.body ht]

/-! ## Objects with given keys -/

/-- A record with the same keys, each from a given list, recovers it where each field does. -/
theorem recovers_of_hasOnly {o o' : Record} {keys : List String} (hn : o.keys.Nodup)
    (hall : o.hasOnly keys = true) (hn' : o'.keys.Nodup) (hall' : o'.hasOnly keys = true)
    (h : ∀ key ∈ keys, Option.Rel Json.Recovers (o.get? key) (o'.get? key)) :
    Json.Recovers (.obj o) (.obj o') := by
  refine Json.recovers_of_get? hn hn' fun key => ?_
  by_cases hk : key ∈ keys
  · exact h key hk
  · have hnone : ∀ {r : Record}, r.hasOnly keys = true → r.get? key = none := fun hr =>
      Record.get?_eq_none_iff.2 fun hm => hk (Record.hasOnly_iff.1 hr key hm)
    rw [hnone hall, hnone hall']
    exact .none

/-- A form that no scalar has is the form of a value that is there. -/
theorem Record.exists_of_form {α : Type} {f : Forms → Option α} (hf : f .scalar = none) {o : Record}
    {key : String} {a : α} (h : f (o.forms key) = some a) :
    ∃ x, o.get? key = some x ∧ f x.forms = some a := by
  cases hx : o.get? key with
  | none =>
    rw [Record.forms_of_none hx, hf] at h
    cases h
  | some x => exact ⟨x, rfl, by rwa [Record.forms_of_some hx] at h⟩

theorem recovers_typed {o : Record} {word key : String} {x y : Json} (hn : o.keys.Nodup)
    (hall : hasOnly o [key] = true) (hkey : key ≠ "type") (htype : text? o "type" = some word)
    (hx : o.get? key = some x) (hr : Json.Recovers x y) :
    Json.Recovers (.obj o) (.obj [textField "type" word, (key, y)]) := by
  refine recovers_of_hasOnly hn hall (by simp [textField, Ne.symm hkey])
    (by simp [Record.hasOnly, textField]) ?_
  intro k hk
  rcases List.mem_cons.1 hk with rfl | hk
  · rw [text?_eq_some.1 htype]
    exact .some rfl
  · obtain rfl := List.mem_singleton.1 hk
    rw [hx, textField, Record.get?_cons, if_neg (Ne.symm hkey), Record.get?_cons, if_pos rfl]
    exact .some hr

def PathReturns (x : Json) : Prop :=
  ∀ ns, x.forms.path = some ns → ParsesAll ns fun ss => ∀ span,
    Yields (Path.compile (Statement.children ss) span) fun r =>
      Returns (fun z => z.forms.path) x (.obj r)

/-! ## Conditions -/

namespace Condition

theorem escapes : Escapes compile "condition" where
  leads := Keyword.leads .generic
  notLine := by decide
  compile ss span nested := by
    have hk : (Statement.block "condition" false [] ss span).plainKeyword?.bind Keyword.ofWord? =
      some .generic := rfl
    simp only [compile, hk]
    rfl

theorem write?_eq_some {o : Record} {forms : String → Forms} {n : Node} : write? o forms = some n ↔
    ∃ k : Keyword, text? o "type" = some k.word ∧ k.statement? o forms = some n :=
  typed_eq_some (find?_name_iff Keyword.ofWord?_word)

theorem notLine (k : Keyword) : k.word ∉ lineWords := by cases k <;> decide

/-- What a block keyword nests: the key, and the form of what is there. -/
theorem body?_eq_some {k : Keyword} {o : Record} {forms : String → Forms} {ns : List Node} :
    k.body? o forms = some ns ↔
    ((k = .and ∨ k = .or) ∧ hasOnly o ["conditions"] = true ∧
      (forms "conditions").conditions = some ns) ∨
      (k = .graphPath ∧ hasOnly o ["assert"] = true ∧ (forms "assert").path = some ns) := by
  cases k <;> simp [Keyword.body?]

end Condition

namespace Condition

section
variable {o : Record} (hv : (Json.obj o).isValid = true)
  (hlist : ∀ key x, o.get? key = some x → ListReturns compile Forms.conditions x)
  (hpath : ∀ key x, o.get? key = some x → PathReturns x)
include hv hlist hpath

theorem parses_block {k : Keyword} {ns : List Node} (htype : text? o "type" = some k.word)
    (h : k.body? o o.forms = some ns) :
    (Node.block [k.word] ns).Parses (Rebuilds compile (fun r => k.body? r r.forms) o ns) := by
  have hn := Json.nodup_of_isValid hv
  -- the record has its type and what it nests
  have hagain : ∀ {key : String} {x y : Json}, hasOnly o [key] = true → key ≠ "type" →
    o.get? key = some x →
      Json.Recovers x y → Json.Recovers (.obj o) (.obj [textField "type" k.word, (key, y)]) ∧
        ((Json.obj o).isTame = true → hasOnly [textField "type" k.word, (key, y)] [key] = true) ∧
        Record.forms [textField "type" k.word, (key, y)] key = y.forms := by
    intro key x y hall hkey hx hr
    refine ⟨recovers_typed hn hall hkey htype hx hr,
      fun ht => by simp [hasOnly, Record.hasOnly, textField], ?_⟩
    exact Record.forms_of_some
      (by rw [textField, Record.get?_cons, if_neg (Ne.symm hkey), Record.get?_cons, if_pos rfl])
  rcases body?_eq_some.1 h with ⟨hk, hall, hns⟩ | ⟨rfl, hall, hns⟩
  · obtain ⟨x, hx, hns⟩ := Record.exists_of_form rfl hns
    refine ((Keyword.leads k).parses_block (notLine k) (hlist _ x hx ns hns)).imp ?_
    rintro _ ⟨ss, span, rfl, hss⟩
    have hcompile : compile (.block k.word false [] ss span) (.ofBody (Statement.children ss)) = do
        return .obj [textField "type" k.word,
          ("conditions", .arr (← compileAll (Statement.children ss)))] := by
      rcases hk with rfl | rfl <;> rfl
    rw [Rebuilds, Statement.nested_block, hcompile]
    refine (gives_lift hss).bind fun ys hys => gives_pure ?_
    obtain ⟨hr, hall', hforms⟩ := hagain hall (by decide) hx hys.1
    refine ⟨_, rfl, hr, fun ht => body?_eq_some.2 (.inl ⟨hk, hall' ht, ?_⟩)⟩
    rw [hforms]
    exact (hys.2 (isTame_of_get? ht hx)).trans hns
  · obtain ⟨x, hx, hns⟩ := Record.exists_of_form rfl hns
    refine ((Keyword.leads _).parses_block (notLine _) (hpath _ x hx ns hns)).imp ?_
    rintro _ ⟨ss, span, rfl, hss⟩
    have hcompile : compile (.block Keyword.graphPath.word false [] ss span)
      (.ofBody (Statement.children ss)) = do
        return .obj [textField "type" Keyword.graphPath.word,
          ("assert", .obj (← Path.compile (Statement.children ss) span))] := rfl
    rw [Rebuilds, Statement.nested_block, hcompile]
    refine (gives_lift (hss span)).bind fun r hr => gives_pure ?_
    obtain ⟨hrec, hall', hforms⟩ := hagain hall (by decide) hx hr.1
    refine ⟨_, rfl, hrec, fun ht => body?_eq_some.2 (.inr ⟨rfl, hall' ht, ?_⟩)⟩
    rw [hforms]
    exact (hr.2 (isTame_of_get? ht hx)).trans hns

theorem condition_returns (hfields : ∀ m ∈ o, FieldReturns m.1 m.2) :
    ItemReturns compile Forms.condition (.obj o) := by
  refine item_returns escapes Json.condition_obj hv hfields Alike.isSome_condition? fun n hn => ?_
  obtain ⟨k, htype, hk⟩ := write?_eq_some.1 hn
  rw [Keyword.statement?] at hk
  split at hk
  · next hblock =>
    simp only [Option.bind_eq_bind, Option.bind_eq_some_iff, Option.pure_def, Option.some.injEq] at hk
    obtain ⟨ns, hns, rfl⟩ := hk
    refine (parses_block hv hlist hpath htype hns).imp fun s hs => hs.imp ?_
    rintro _ ⟨o', rfl, hr, hagain⟩
    refine ⟨o', rfl, hr, fun ht => write?_eq_some.2 ⟨k, ?_, ?_⟩⟩
    · rw [(alike_of_recovers ht hr).text?, htype]
    · simp [Keyword.statement?, hblock, hagain ht]
  · next hblock =>
    simp only [Option.bind_eq_bind, Option.bind_eq_some_iff, Option.pure_def, Option.some.injEq] at hk
    obtain ⟨ws, hws, rfl⟩ := hk
    refine (Keyword.parses_line hv htype hws).imp fun s hs => ?_
    obtain ⟨o', hr, hcompile⟩ := compile_of_restores hs (Bool.eq_false_iff.2 hblock)
    rw [Rebuilds, hcompile]
    refine gives_pure ⟨o', rfl, hr.recovers hv, fun ht => write?_eq_some.2 ⟨k, ?_, ?_⟩⟩
    · rw [(hr.alike ht).text?, htype]
    · simp [Keyword.statement?, hblock, Keyword.words?_of_rewritten hr ht, hws]

end

end Condition

/-! ## Filters -/

namespace Filter

theorem escapes : Escapes compile "filter" where
  leads := Keyword.leads .generic
  notLine := by decide
  compile ss span nested := by
    have hk : (Statement.block "filter" false [] ss span).plainKeyword?.bind Keyword.ofWord? =
      some .generic := rfl
    simp only [compile, hk]
    rfl

theorem write?_eq_some {o : Record} {forms : String → Forms} {n : Node} : write? o forms = some n ↔
    ∃ k : Keyword, text? o "type" = some k.word ∧ k.statement? o forms = some n :=
  typed_eq_some (find?_name_iff Keyword.ofWord?_word)

theorem statement?_eq_some {k : Keyword} {o : Record} {forms : String → Forms} {n : Node} :
    k.statement? o forms = some n ↔
    (k.isBlock = false ∧ ∃ ws, k.words? o = some ws ∧ Node.line (k.word :: ws) = n) ∨
      (k = .graphPath ∧ hasOnly o ["assert"] = true ∧ ∃ ns, (forms "assert").path = some ns ∧
        Node.block [k.word] ns = n) := by
  cases k <;> simp [Keyword.statement?, Keyword.isBlock, Option.bind_eq_some_iff]

theorem filter_returns {o : Record} (hv : (Json.obj o).isValid = true)
    (hpath : ∀ key x, o.get? key = some x → PathReturns x) (hfields : ∀ m ∈ o, FieldReturns m.1 m.2) :
    ItemReturns compile Forms.filter (.obj o) := by
  refine item_returns escapes Json.filter_obj hv hfields Alike.isSome_filter? fun n hn => ?_
  obtain ⟨k, htype, hk⟩ := write?_eq_some.1 hn
  rcases statement?_eq_some.1 hk with ⟨hblock, ws, hws, rfl⟩ | ⟨rfl, hall, ns, hns, rfl⟩
  · refine (Keyword.parses_line htype hv hws).imp fun s hs => ?_
    obtain ⟨o', hr, hcompile⟩ := compile_of_restores hs hblock
    rw [Rebuilds, hcompile]
    refine gives_pure ⟨o', rfl, hr.rewritten.recovers hv, fun ht => write?_eq_some.2 ⟨k, ?_, ?_⟩⟩
    · rw [(hr.rewritten.alike ht).text?, htype]
    · exact statement?_eq_some.2 (.inl ⟨hblock, ws, by rw [Keyword.words?_of_settles hr ht, hws], rfl⟩)
  · obtain ⟨x, hx, hns⟩ := Record.exists_of_form rfl hns
    refine ((Keyword.leads .graphPath).parses_block (by decide) (hpath _ x hx ns hns)).imp ?_
    rintro _ ⟨ss, span, rfl, hss⟩
    have hcompile : compile (.block Keyword.graphPath.word false [] ss span)
      (.ofBody (Statement.children ss)) = do
        return .obj [textField "type" Keyword.graphPath.word,
          ("assert", .obj (← Path.compile (Statement.children ss) span))] := rfl
    rw [Rebuilds, Statement.nested_block, hcompile]
    refine (gives_lift (hss span)).bind fun r hr => gives_pure ?_
    have hrec := recovers_typed (Json.nodup_of_isValid hv) hall (by decide) htype hx hr.1
    refine ⟨_, rfl, hrec, fun ht =>
      write?_eq_some.2 ⟨.graphPath, rfl, statement?_eq_some.2 (.inr ⟨rfl, rfl, ns, ?_, rfl⟩)⟩⟩
    rw [Record.forms_of_some (o := [textField "type" _, ("assert", Json.obj r)]) rfl]
    exact (hr.2 (isTame_of_get? ht hx)).trans hns

end Filter

/-! ## Constraints of a path -/

namespace Path

theorem escapes : Escapes constraint "constraint" where
  leads := ⟨by decide, by decide, by decide⟩
  notLine := by decide
  compile ss span nested := rfl

end Path

namespace Path

section
variable {o : Record} {n : Node}

abbrev Constrains (o : Record) (n : Node) : Prop :=
  n.Parses fun s => ∃ o', Rewritten o o' ∧ ∀ nested, constraint s nested = pure (.obj o')

theorem constrains_notSelf (htype : text? o "type" = some "not_self") (h : hasOnly o [] = true) :
    Constrains o (.line ["not_self"]) := by
  refine (Node.parses_words (by decide) (by decide) (by decide) .nil).imp ?_
  rintro s ⟨vs, hs, hvs⟩
  cases hvs
  refine ⟨[textField "type" "not_self"], rewritten_reread h (by decide) ?_, fun nested => ?_⟩
  · rw [Record.reread_text htype]; rfl
  · generalize hvs : ([] : List Value) = vs at hs
    cases hs with
    | bare => rfl
    | field labels value => simp at hvs

theorem constrains_in {set : String} (htype : text? o "type" = some "in") (h : hasOnly o ["set"] = true)
    (hset : text? o "set" = some set) : Constrains o (.line ["in", Written.reference set]) := by
  refine (Node.parses_in (word_reference set) fun v hv items span he => ?_).imp ?_
  · obtain ⟨_, rfl | rfl⟩ := hv.cases_str <;> cases he
  · rintro _ ⟨v, span, rfl, hv⟩
    refine ⟨[textField "type" "in", textField "set" set], rewritten_reread h (by decide) ?_,
      fun nested => ?_⟩
    · rw [Record.reread_text htype, Record.reread_text hset]; rfl
    · have hargs : Args.of (.within none [v] span) = ⟨"in", span, [v]⟩ := rfl
      simp only [constraint, membership, hargs, Args.value_cons, reference_eq hv, Args.finish_nil,
        pure_bind, liftM_pure]
      rfl

end

end Path

theorem Statement.IsLine.exists_field {k : String} {vs : List Value} {s : Statement}
    (h : s.IsLine k vs none) (hne : vs ≠ []) :
    ∃ labels value span, s = .field k false labels value span := by
  cases h with
  | bare => exact absurd rfl hne
  | field labels value span => exact ⟨labels, value, span, rfl⟩

namespace Path

section
variable {o : Record} {ws : List String}

/-- A constraint with arguments is read by the reader of its word. -/
theorem constrains_line {word : String} (read : Statement → Attempt Json) {Ps : List (Value → Prop)}
    (hw : Leads word)
    (hread : ∀ labels value span nested, constraint (.field word false labels value span) nested =
      read (.field word false labels value span)) (hws : List.Forall₂ Word ws Ps) (hne : ws ≠ [])
    (h : ∀ s vs, s.IsLine word vs none → Meets Ps vs → ∃ o', Rewritten o o' ∧ read s = pure (.obj o')) :
    Constrains o (.line (word :: ws)) := by
  refine (Node.parses_words hw.isName hw.notSpecial hw.notShaped hws).imp ?_
  rintro s ⟨vs, hs, hvs⟩
  have hvne : vs ≠ [] := by
    rintro rfl
    have := hws.length_eq.trans hvs.length_eq
    exact hne (List.length_eq_zero_iff.1 this)
  obtain ⟨labels, value, span, rfl⟩ := hs.exists_field hvne
  obtain ⟨o', hr, ho⟩ := h _ vs hs hvs
  exact ⟨o', hr, fun nested => (hread ..).trans ho⟩

theorem constrains_notIn {set : String} (htype : text? o "type" = some "not_in")
    (h : hasOnly o ["set"] = true) (hset : text? o "set" = some set) :
    Constrains o (.line ["not_in", Written.reference set]) := by
  refine constrains_line (membership "not_in") ⟨by decide, by decide, by decide⟩ (fun _ _ _ _ => rfl)
    (.cons (word_reference set) .nil) (by simp) fun s vs hs hvs => ?_
  rcases hvs with _ | ⟨hv, _ | _⟩
  refine ⟨[textField "type" "not_in", textField "set" set], rewritten_reread h (by decide) ?_, ?_⟩
  · rw [Record.reread_text htype, Record.reread_text hset]; rfl
  · simp only [membership, hs.args, Args.value_cons, reference_eq hv, Args.finish_nil,
      pure_bind, liftM_pure]
    rfl

theorem constrains_relationship {word : String}
    (hw : word = "has_relationship" ∨ word = "lacks_relationship") (htype : text? o "type" = some word)
    (h : Filter.relationshipWords? o = some ws) : Constrains o (.line (word :: ws)) := by
  obtain ⟨hall, Ps, hargs, hfields⟩ := Filter.relationshipFields_of h
  have hne : ws ≠ [] := by
    rintro rfl
    simp [Filter.relationshipWords?, Option.bind_eq_some_iff] at h
  refine constrains_line (relationship word) ?_ ?_ hargs hne fun s vs hs hvs => ?_
  · rcases hw with rfl | rfl <;> exact ⟨by decide, by decide, by decide⟩
  · rcases hw with rfl | rfl <;> exact fun _ _ _ _ => rfl
  · refine ⟨_, rewritten_reread hall (by decide) rfl, ?_⟩
    rw [Record.reread_text htype]
    simp only [relationship, hfields word s vs none hs hvs, pure_bind, typed]

theorem constrains_equality {field text : String} (hf : field = "kind" ∨ field = "subtype")
    (htype : text? o "type" = some (field ++ "_equals")) (h : hasOnly o [field] = true)
    (htext : text? o field = some text) : Constrains o (.line [field, string text]) := by
  refine constrains_line (equality field) ?_ ?_ (.cons (word_string text) .nil) (by simp)
    fun s vs hs hvs => ?_
  · rcases hf with rfl | rfl <;> exact ⟨by decide, by decide, by decide⟩
  · rcases hf with rfl | rfl <;> exact fun _ _ _ _ => rfl
  · rcases hvs with _ | ⟨hv, _ | _⟩
    refine ⟨[textField "type" (field ++ "_equals"), textField field text], rewritten_reread h ?_ ?_, ?_⟩
    · rcases hf with rfl | rfl <;> decide
    · rw [Record.reread_text htype, Record.reread_text htext]; rfl
    · simp only [equality, hs.args, Args.text_cons hv.text?, Args.finish_nil, pure_bind, typed]

theorem constrains {n : Node} (h : constraint? o = some n) : Constrains o n := by
  simp only [constraint?, Option.bind_eq_bind, Option.bind_eq_some_iff] at h
  obtain ⟨name, htype, h⟩ := h
  split at h
  · simp at h
    obtain ⟨hall, rfl⟩ := h
    exact constrains_notSelf htype hall
  · simp [Option.bind_eq_some_iff] at h
    obtain ⟨hall, set, hset, rfl⟩ := h
    exact constrains_in htype hall hset
  · simp [Option.bind_eq_some_iff] at h
    obtain ⟨hall, set, hset, rfl⟩ := h
    exact constrains_notIn htype hall hset
  · simp [Option.bind_eq_some_iff] at h
    obtain ⟨ws, hws, rfl⟩ := h
    exact constrains_relationship (.inl rfl) htype hws
  · simp [Option.bind_eq_some_iff] at h
    obtain ⟨ws, hws, rfl⟩ := h
    exact constrains_relationship (.inr rfl) htype hws
  · simp [Option.bind_eq_some_iff] at h
    obtain ⟨hall, kind, hkind, rfl⟩ := h
    exact constrains_equality (.inl rfl) htype hall hkind
  · simp [Option.bind_eq_some_iff] at h
    obtain ⟨hall, subtype, hsubtype, rfl⟩ := h
    exact constrains_equality (.inr rfl) htype hall hsubtype
  · cases h

theorem constraint_returns (hv : (Json.obj o).isValid = true)
    (hfields : ∀ m ∈ o, FieldReturns m.1 m.2) : ItemReturns constraint Forms.constraint (.obj o) := by
  refine item_returns escapes Json.constraint_obj hv hfields (fun h => by rw [h.constraint?])
    fun n hn => ?_
  refine (constrains hn).imp ?_
  rintro s ⟨o', hr, hcompile⟩
  rw [Rebuilds, hcompile]
  exact gives_pure ⟨o', rfl, hr.recovers hv, fun ht => by rw [(hr.alike ht).constraint?, hn]⟩

end

end Path

/-! ## Mutations -/

/-- Fields that are reread and fields that nest, one after the other, recover the record. -/
theorem recovers_reread_append {o : Record} (keys more : List String) (nested : Record)
    (hv : (Json.obj o).isValid = true) (hall : o.hasOnly (keys ++ more) = true)
    (hn : (keys ++ more).Nodup) (hsub : nested.keys.Sublist more)
    (h : ∀ key ∈ more, Option.Rel Json.Recovers (o.get? key) (nested.get? key)) :
    Json.Recovers (.obj o) (.obj (o.reread keys ++ nested)) := by
  have hkeys := List.nodup_append.1 hn
  have hsubset : ∀ key ∈ (o.reread keys ++ nested).keys, key ∈ keys ++ more := by
    intro key hk
    rw [Record.keys_append, Record.keys_reread, List.mem_append] at hk
    exact List.mem_append.2 (hk.imp List.mem_of_mem_filter (hsub.subset ·))
  refine recovers_of_hasOnly (Json.nodup_of_isValid hv) hall ?_ (Record.hasOnly_iff.2 hsubset)
    fun key hk => ?_
  · rw [Record.keys_append, Record.keys_reread]
    exact List.nodup_append.2 ⟨hkeys.1.filter _, hkeys.2.1.sublist hsub,
      fun a ha b hb => hkeys.2.2 a (List.mem_of_mem_filter ha) b (hsub.subset hb)⟩
  · rw [Record.get?_append, Record.get?_reread]
    by_cases hin : key ∈ keys
    · have hnone : nested.get? key = none :=
        Record.get?_eq_none_iff.2 fun hm => hkeys.2.2 key hin key (hsub.subset hm) rfl
      rw [if_pos hin, hnone, Option.or_none]
      cases hx : o.get? key with
      | none => exact .none
      | some x => exact .some (Json.recovers_reread (isValid_of_get? hv hx))
    · rw [if_neg hin, Option.none_or]
      exact h key ((List.mem_append.1 hk).resolve_left hin)

theorem forms_reread_append (o : Record) (keys : List String) (nested : Record) {key : String}
    {y : Json} (hk : key ∉ keys) (h : nested.get? key = some y) :
    Record.forms (o.reread keys ++ nested) key = y.forms := by
  refine Record.forms_of_some ?_
  rw [Record.get?_append, Record.get?_reread, if_neg hk, Option.none_or, h]

namespace Mutation

theorem escapes : Escapes compile "mutation" where
  leads := Keyword.leads .generic
  notLine := by decide
  compile ss span nested := by
    have hk : Keyword.ofStatement? (.block "mutation" false [] ss span) = some .generic := rfl
    simp only [compile, hk]
    rfl

theorem alias_of {o : Record} {ws : List String} (h : aliasWord? o = some ws) : ∃ Ps,
    List.Forall₂ Word (ws.flatMap (["as", ·])) Ps ∧ (∀ P ∈ Ps.head?, ∀ v, P v → v.Names "as") ∧
      ∀ word span what vs, Meets Ps vs → ∃ name, (∀ a ∈ name, Scope.hasSigil a = true) ∧
        Args.markedText ⟨word, span, vs⟩ "as" what = pure (name, ⟨word, span, []⟩) ∧
        optionalText "as" name = o.reread ["as"] := by
  obtain ⟨bound, hbound, halias, rfl⟩ := aliasWord?_eq_some.1 h
  have hreread := Record.reread_optionalText hbound []
  rw [Record.reread_nil, List.append_nil] at hreread
  cases bound with
  | none =>
    refine ⟨[], .nil, nofun, fun word span what vs hvs => ⟨none, nofun, ?_, hreread.symm⟩⟩
    cases hvs
    rfl
  | some a =>
    have ha := halias a rfl
    refine ⟨_, .cons (word_name (by decide) (by decide) (by decide)) (.cons (word_binding ha) .nil), ?_,
      fun word span what vs hvs => ⟨some a, ?_, ?_, hreread.symm⟩⟩
    · rintro P ⟨⟩ v hP
      exact hP
    · rintro _ ⟨⟩
      exact hasSigil_of_isBinding ha
    · rcases hvs with _ | ⟨hm, _ | ⟨hv, _ | _⟩⟩
      simp only [Args.markedText, Args.marker_cons hm, if_true, Args.text_cons hv.text?, pure_bind]

section
variable {o : Record} (hv : (Json.obj o).isValid = true)
  (hlist : ∀ key x, o.get? key = some x → ListReturns compile Forms.mutations x)
include hv hlist

theorem parses_forEachRelated {n : Node} (htype : text? o "type" = some Keyword.forEachRelated.typeName)
    (h : forEachRelated? o o.forms = some n) :
    n.Parses (Rebuilds compile (fun r => forEachRelated? r r.forms) o n) := by
  have hstatement := h
  simp [forEachRelated?, Option.bind_eq_some_iff] at h
  obtain ⟨hall, subject, hsubject, dir, hdir, bound, hbound, ns, hns, rfl⟩ := h
  obtain ⟨x, hx, hns⟩ := Record.exists_of_form rfl hns
  obtain ⟨Ps, hPs, hread⟩ := Keyword.entityAndKind_of hsubject
  obtain ⟨Rs, hRs, -, hread'⟩ := Keyword.direction_of hdir
  obtain ⟨Ts, hTs, hhead, hread''⟩ := alias_of hbound
  have hleads := Keyword.leads .forEachRelated
  refine (Node.parses_named_block hleads.isName hleads.notSpecial (by decide)
    (List.rel_append hPs (List.rel_append hRs hTs)) (hlist _ x hx ns hns)).imp ?_
  rintro _ ⟨labels, ss, span, rfl, hlabels, hss⟩
  obtain ⟨us, hus, hsubject'⟩ := hread Keyword.forEachRelated.word span _ _ hlabels
  -- behind an optional direction only `as` may stand, which is not taken for one
  have hapart : Args.Apart "direction" Ts := by
    intro R hR v hv
    rw [(hhead R hR v hv).isWord]
    rfl
  obtain ⟨us, hus, hdir'⟩ := hread' Keyword.forEachRelated.word span _ _ hus hapart
  obtain ⟨name, hsigil, hname, hback⟩ :=
    hread'' Keyword.forEachRelated.word span "a binding name after 'as'" _ hus
  have hargs : Args.of (.block Keyword.forEachRelated.word false labels ss span) =
      ⟨Keyword.forEachRelated.word, span, labels⟩ := rfl
  have hk : Keyword.ofStatement? (.block Keyword.forEachRelated.word false labels ss span) =
    some .forEachRelated := rfl
  rw [Rebuilds, Statement.nested_block]
  simp only [compile, hk, Keyword.fits, Keyword.isBlock, Bool.not_true, Bool.false_eq_true, if_false,
    Keyword.fields, hargs, hsubject', hdir', hname, pure_bind, bind_assoc]
  refine (gives_lift (yields_aliasField hsigil)).bind ?_
  rintro _ rfl
  rw [Args.finish_nil, pure_bind]
  refine (gives_lift hss).bind fun ys hys => gives_pure ?_
  -- the fields come back in the order of the keys, with the actions at the end
  have hrecord : textField "type" Keyword.forEachRelated.typeName ::
    (o.reread ["entity", "relationshipKind"] ++
      o.reread ["direction"] ++ optionalText "as" name ++ [("actions", Json.arr ys)]) =
      o.reread ["type", "entity", "relationshipKind", "direction", "as"] ++ [("actions", .arr ys)] := by
    rw [Record.reread_text htype, hback, ← Record.reread_append, ← Record.reread_append]
    rfl
  have hr := recovers_reread_append ["type", "entity", "relationshipKind", "direction",
    "as"] ["actions"] [("actions", .arr ys)] hv hall (by decide) (.refl _) (by
      rintro key hk
      obtain rfl := List.mem_singleton.1 hk
      rw [hx]
      exact .some hys.1)
  refine ⟨_, congrArg Json.obj hrecord, hr, fun ht => ?_⟩
  have ha := alike_of_recovers ht hr
  have hforms : Record.forms (o.reread ["type", "entity", "relationshipKind", "direction", "as"] ++
      [("actions", .arr ys)]) "actions" = (Json.arr ys).forms :=
        forms_reread_append _ _ _ (by decide) rfl
  rw [← hstatement]
  simp only [forEachRelated?, Written.hasOnly, ha.hasOnly, Keyword.entityAndKind?_of_alike ha,
    Keyword.direction?_of_alike ha, ha.aliasWord?, hforms, Record.forms_of_some hx,
    hys.2 (isTame_of_get? ht hx)]

end

end Mutation

namespace Mutation

theorem alternative?_eq_some {o : Record} {forms : String → Forms} {ns : List Node} :
    alternative? o forms = some ns ↔
    (o.has "else" = false ∧ [] = ns) ∨ (o.has "else" = true ∧ ∃ ms, (forms "else").mutations = some ms ∧
      [Node.block ["else"] ms] = ns) := by
  rw [alternative?]
  cases o.has "else" <;> simp [Option.bind_eq_some_iff]

structure Branched (o : Record) (b : Branches) : Prop where
  conditions : ∃ x ys, o.get? "conditions" = some x ∧ b.conditions = some ys ∧
    Returns (fun z => z.forms.conditions) x (.arr ys)
  consequence : ∃ x ys, o.get? "then" = some x ∧ b.consequence = some ys ∧
    Returns (fun z => z.forms.mutations) x (.arr ys)
  alternative : Option.Rel (fun x ys => Returns (fun z => z.forms.mutations) x (.arr ys))
    (o.get? "else") b.alternative

section
variable {o : Record} (hconditions : ∀ key x, o.get? key = some x →
  ListReturns Condition.compile Forms.conditions x) (hmutations : ∀ key x, o.get? key = some x →
  ListReturns compile Forms.mutations x)
include hconditions hmutations

theorem parses_branches {cs ms ns : List Node} (hcs : (o.forms "conditions").conditions = some cs)
    (hms : (o.forms "then").mutations = some ms) (hns : alternative? o o.forms = some ns) :
    ParsesAll ([.block ["when"] cs, .block ["then"] ms] ++ ns) fun ss =>
      Yields (branches (Statement.children ss)) (Branched o) := by
  obtain ⟨x, hx, hcs⟩ := Record.exists_of_form rfl hcs
  obtain ⟨y, hy, hms⟩ := Record.exists_of_form rfl hms
  have hleads : ∀ w ∈ ["when", "then", "else"], Leads w ∧ w ∉ lineWords := by
    intro w hw
    simp only [List.mem_cons, List.not_mem_nil, or_false] at hw
    rcases hw with rfl | rfl | rfl <;> exact ⟨⟨by decide, by decide, by decide⟩, by decide⟩
  refine ((hleads "when" (by simp)).1.parses_block (hleads "when" (by simp)).2
    (hconditions _ x hx cs hcs)).imp ?_
  rintro _ ⟨ss₁, span₁, rfl, hss₁⟩
  refine ((hleads "then" (by simp)).1.parses_block (hleads "then" (by simp)).2
    (hmutations _ y hy ms hms)).imp ?_
  rintro _ ⟨ss₂, span₂, rfl, hss₂⟩
  have hwhen :
    Yields (branch (.block "when" false [] ss₁ span₁, .ofBody (Statement.children ss₁))
      ⟨none, none, none⟩) fun b => ∃ ys, b = ⟨some ys, none, none⟩ ∧
      Returns (fun z => z.forms.conditions) x (.arr ys) :=
    Yields.bind hss₁ fun ys hys => yields_pure ⟨ys, rfl, hys⟩
  have hthen :
    ∀ ys, Yields (branch (.block "then" false [] ss₂ span₂, .ofBody (Statement.children ss₂))
      ⟨some ys, none, none⟩) fun b => ∃ zs, b = ⟨some ys, some zs, none⟩ ∧
      Returns (fun z => z.forms.mutations) y (.arr zs) :=
    fun ys => Yields.bind hss₂ fun zs hzs => yields_pure ⟨zs, rfl, hzs⟩
  -- `when` and `then` are always there, `else` only if the record has it
  rcases alternative?_eq_some.1 hns with ⟨hno, rfl⟩ | ⟨hhas, ws, hws, rfl⟩
  · simp only [Statement.children_cons, Statement.nested_block, branches]
    refine yields_thread_cons hwhen ?_
    rintro _ ⟨ys, rfl, hys⟩
    refine yields_thread_cons (hthen ys) ?_
    rintro _ ⟨zs, rfl, hzs⟩
    refine yields_thread_nil ⟨⟨x, ys, hx, rfl, hys⟩, ⟨y, zs, hy, rfl, hzs⟩, ?_⟩
    rw [Record.get?_eq_none_iff.2 (Record.has_eq_false.1 hno)]
    exact .none
  · obtain ⟨z, hz, hws⟩ := Record.exists_of_form rfl hws
    refine ((hleads "else" (by simp)).1.parses_block (hleads "else" (by simp)).2
      (hmutations _ z hz ws hws)).imp ?_
    rintro _ ⟨ss₃, span₃, rfl, hss₃⟩
    have helse :
      ∀ ys zs, Yields (branch (.block "else" false [] ss₃ span₃, .ofBody (Statement.children ss₃))
        ⟨some ys, some zs, none⟩) fun b => ∃ us, b = ⟨some ys, some zs, some us⟩ ∧
          Returns (fun z => z.forms.mutations) z (.arr us) :=
      fun ys zs => Yields.bind hss₃ fun us hus => yields_pure ⟨us, rfl, hus⟩
    simp only [Statement.children_cons, Statement.nested_block, branches]
    refine yields_thread_cons hwhen ?_
    rintro _ ⟨ys, rfl, hys⟩
    refine yields_thread_cons (hthen ys) ?_
    rintro _ ⟨zs, rfl, hzs⟩
    refine yields_thread_cons (helse ys zs) ?_
    rintro _ ⟨us, rfl, hus⟩
    refine yields_thread_nil ⟨⟨x, ys, hx, rfl, hys⟩, ⟨y, zs, hy, rfl, hzs⟩, ?_⟩
    rw [hz]
    exact .some hus

theorem parses_conditional {n : Node} (hv : (Json.obj o).isValid = true)
    (htype : text? o "type" = some Keyword.conditional.typeName) (h : conditional? o o.forms = some n) :
    n.Parses (Rebuilds compile (fun r => conditional? r r.forms) o n) := by
  have hstatement := h
  simp [conditional?, Option.bind_eq_some_iff] at h
  obtain ⟨hall, cs, hcs, ms, hms, ns, hns, rfl⟩ := h
  refine ((Keyword.leads .conditional).parses_block (by decide)
    (parses_branches hconditions hmutations hcs hms hns)).imp ?_
  rintro _ ⟨ss, span, rfl, hss⟩
  have hcompile : compile (.block Keyword.conditional.word false [] ss span)
    (.ofBody (Statement.children ss)) = do
      return .obj (textField "type" Keyword.conditional.typeName ::
        (← conditional (.block Keyword.conditional.word false [] ss span)
          (.ofBody (Statement.children ss)))) := rfl
  rw [Rebuilds, Statement.nested_block, hcompile, conditional, bind_assoc]
  refine (gives_lift hss).bind ?_
  rintro ⟨_, _, alternative⟩ ⟨⟨x, ys, hx, rfl, hys⟩, ⟨y, zs, hy, rfl, hzs⟩, halt⟩
  -- What the body gives stands behind the type. It is named, so that the fields are looked up in it
  -- by `hget` alone.
  obtain ⟨nested, hnested⟩ : ∃ r : Record, r = ("conditions", Json.arr ys) :: ("then", Json.arr zs) ::
    (alternative.map fun list => ("else", Json.arr list)).toList := ⟨_, rfl⟩
  have hget : nested.get? "conditions" = some (.arr ys) ∧ nested.get? "then" = some (.arr zs) ∧
      nested.get? "else" = alternative.map .arr := by
    subst hnested
    cases alternative <;> exact ⟨rfl, rfl, rfl⟩
  have hrecord : textField "type" Keyword.conditional.typeName ::
    ([("conditions", Json.arr ys), ("then", Json.arr zs)] ++
      (alternative.map fun list => ("else", Json.arr list)).toList) = o.reread ["type"] ++ nested := by
    rw [Record.reread_text htype, hnested]
    rfl
  have hr := recovers_reread_append ["type"] ["conditions", "then", "else"] nested hv hall
    (by decide) ?_ ?_
  · refine gives_pure ⟨_, congrArg Json.obj hrecord, hr, fun ht => ?_⟩
    have ha := alike_of_recovers ht hr
    have hc : (Record.forms (o.reread ["type"] ++ nested) "conditions").conditions =
      (o.forms "conditions").conditions := by
      rw [Record.forms_of_some hx, forms_reread_append _ _ _ (by decide) hget.1]
      exact hys.2 (isTame_of_get? ht hx)
    have hm : (Record.forms (o.reread ["type"] ++ nested) "then").mutations =
      (o.forms "then").mutations := by
      rw [Record.forms_of_some hy, forms_reread_append _ _ _ (by decide) hget.2.1]
      exact hzs.2 (isTame_of_get? ht hy)
    have he : o.has "else" = true →
        (Record.forms (o.reread ["type"] ++ nested) "else").mutations = (o.forms "else").mutations := by
      intro hhas
      obtain ⟨z, hz⟩ := Option.isSome_iff_exists.1 hhas
      rw [hz] at halt
      cases halt with
      | some hus =>
        rw [Record.forms_of_some hz, forms_reread_append _ _ _ (by decide) hget.2.2]
        exact hus.2 (isTame_of_get? ht hz)
    rw [← hstatement]
    simp only [conditional?, Written.hasOnly, ha.hasOnly, alternative?, ha.has, hc, hm]
    cases hhas : o.has "else" with
    | false => rfl
    | true => simp [he hhas]
  · rw [hnested]
    cases alternative <;> simp
  · intro key hk
    simp only [List.mem_cons, List.not_mem_nil, or_false] at hk
    rcases hk with rfl | rfl | rfl
    · rw [hx, hget.1]
      exact .some hys.1
    · rw [hy, hget.2.1]
      exact .some hzs.1
    · rw [hget.2.2]
      generalize o.get? "else" = z at halt
      cases halt with
      | none => exact .none
      | some hus => exact .some hus.1

end

end Mutation

namespace Mutation

theorem mutation_returns {o : Record} (hv : (Json.obj o).isValid = true)
    (hconditions : ∀ key x, o.get? key = some x → ListReturns Condition.compile Forms.conditions x)
    (hmutations : ∀ key x, o.get? key = some x → ListReturns compile Forms.mutations x)
    (hfields : ∀ m ∈ o, FieldReturns m.1 m.2) : ItemReturns compile Forms.mutation (.obj o) := by
  refine item_returns escapes Json.mutation_obj hv hfields Alike.isSome_mutation? fun n hn => ?_
  obtain ⟨k, htype, hk⟩ := write?_eq_some.1 hn
  -- what the keyword's statement is read as has the keyword's type again
  have hagain : ∀ {s}, Rebuilds compile (fun r => k.statement? r r.forms) o n s →
      Rebuilds compile (fun r => write? r r.forms) o n s := by
    intro s hs
    refine hs.imp ?_
    rintro _ ⟨o', rfl, hr, hstatement⟩
    refine ⟨o', rfl, hr, fun ht => write?_eq_some.2 ⟨k, ?_, hstatement ht⟩⟩
    rw [(alike_of_recovers ht hr).text?, htype]
  cases hnests : k.nests with
  | false =>
    refine (returns_statement hv htype hk hnests).imp fun s hs => hagain ((hs s.nested).imp ?_)
    rintro _ ⟨o', rfl, hr, hstatement⟩
    exact ⟨o', rfl, hr.recovers hv, fun ht =>
      (statement?_of_not_nests hnests o' _ o.forms).trans (hstatement ht)⟩
  | true =>
    cases k with
    | forEachRelated => exact (parses_forEachRelated hv hmutations htype hk).imp fun s => hagain
    | conditional => exact (parses_conditional hconditions hmutations hv htype hk).imp fun s => hagain
    | _ => cases hnests

end Mutation

end Worldbook
