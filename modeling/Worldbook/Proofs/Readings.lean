import Mathlib.Data.List.Forall2
import Worldbook.Proofs.Alignment

/-!
# The small languages and their reports

One lemma for each kind of statement says that it is read alike with and without spans, and that an
attempt gives up only over an error. The readings of a nested body are taken as read alike; the last
section ties the languages together by recursion over statements.
-/

namespace Worldbook

open CompileM Args

/-- Two readings of a body, the second without spans. -/
structure Nested.Mirrored (n n' : Nested) : Prop where
  fields : ∀ r, Mirrors id (n.fields r) (n'.fields r)
  conditions : Mirrors id n.conditions n'.conditions
  filters : Mirrors id n.filters n'.filters
  mutations : Mirrors id n.mutations n'.mutations
  constraints : Mirrors id n.constraints n'.constraints
  path : ∀ span, Mirrors id (n.path span) (n'.path .nowhere)
  step : ∀ r, Mirrors id (n.step r) (n'.step r)
  selection : ∀ r, Mirrors id (n.selection r) (n'.selection r)
  binding : Mirrors id n.binding n'.binding
  branches : Mirrors id n.branches n'.branches

/-! ## Keywords -/

section
variable {α β γ δ : Type} {R : α → β → Prop} {R' : γ → δ → Prop}

/-- The second attempt does what the first does, but for the spans in its
reports, and their results are related. They give up only over an error. -/
def Echoes (R : α → β → Prop) (m : Attempt α) (m' : Attempt β) : Prop :=
  ∀ s, ∃ r r' s' new, Runs m.run s r s' new ∧ Runs m'.run s r' s' (new.map Diagnostic.erased) ∧
    Option.Rel R r r' ∧
    (r = none → ∃ d ∈ new, d.isError = true)

theorem Tries.echoes {R : α → α → Prop} {f : α → α} {m m' : Attempt α} (h : Tries f m m')
    (hR : ∀ a, R a (f a)) : Echoes R m m' := by
  intro s
  obtain ⟨r, s', new, hm, hm', herror⟩ := h s
  refine ⟨r, _, s', new, hm, hm', ?_, herror⟩
  cases r with
  | none => exact .none
  | some a => exact .some (hR a)

theorem Echoes.tries {R : α → α → Prop} {f : α → α} {m m' : Attempt α} (h : Echoes R m m')
    (hR : ∀ a b, R a b → b = f a) : Tries f m m' := by
  intro s
  obtain ⟨r, r', s', new, hm, hm', hr, herror⟩ := h s
  refine ⟨r, s', new, hm, ?_, herror⟩
  cases hr with
  | none => exact hm'
  | some hab =>
    rw [hR _ _ hab] at hm'
    exact hm'

theorem echoes_pure {a : α} {b : β} (h : R a b) : Echoes R (pure a) (pure b) :=
  fun s => ⟨some a, some b, s, [], runs_pure _ s, runs_pure _ s, .some h, nofun⟩

theorem echoes_reject {p : Problem} (hp : p.severity = .error) (span : Span) :
    Echoes R (reject p span) (reject p .nowhere) :=
  fun s => ⟨none, none, s, [p.reported span], fun _ => rfl, fun _ => rfl, .none,
    fun _ => ⟨_, List.mem_singleton_self _, decide_eq_true hp⟩⟩

theorem Echoes.bind {m : Attempt α} {m' : Attempt β} {k : α → Attempt γ} {k' : β → Attempt δ}
    (hm : Echoes R m m') (hk : ∀ a b, R a b → Echoes R' (k a) (k' b)) :
    Echoes R' (m >>= k) (m' >>= k') := by
  intro s
  obtain ⟨r, r', s', new, h, h', hr, herror⟩ := hm s
  cases hr with
  | none =>
    refine ⟨none, none, s', new ++ [], ?_, ?_, .none, ?_⟩
    · rw [OptionT.run_bind]
      exact h.bind (runs_pure none s')
    · rw [OptionT.run_bind, List.map_append]
      exact h'.bind (runs_pure none s')
    · simpa using herror
  | @some a b hab =>
    obtain ⟨c, d, s'', more, hc, hd, hcd, hmore⟩ := hk a b hab s'
    refine ⟨c, d, s'', new ++ more, ?_, ?_, hcd, ?_⟩
    · rw [OptionT.run_bind]
      exact h.bind hc
    · rw [OptionT.run_bind, List.map_append]
      exact h'.bind hd
    · intro hnone
      obtain ⟨e, he, herror⟩ := hmore hnone
      exact ⟨e, List.mem_append_right _ he, herror⟩

end

def Alignment.erasing : Alignment where
  move _ := .nowhere
  span _ := True
  value _ := True
  json _ x y := y = x
  Reads := Echoes
  span_value _ := trivial
  literal _ _ := rfl
  items _ _ _ := trivial
  str _ _ := rfl
  arr h := congrArg Json.arr (List.forall₂_eq_eq_eq ▸ h.flip)
  obj h := congrArg Json.obj (List.forall₂_eq_eq_eq ▸ h.flip.imp fun _ _ h => Prod.ext h.1 h.2)
  pure := echoes_pure
  bind := Echoes.bind
  reject hp _ _ := echoes_reject hp _
  reference _ := (mirrors_reference _).lift.echoes fun _ => rfl
  required _ := (tries_requiredReference _).echoes fun _ _ => rfl

namespace Alignment

theorem record_erasing {r r' : Record} : erasing.record r r' ↔ r' = r := by
  constructor
  · intro h
    have hobj : Json.obj r' = .obj r := @obj erasing false r r' h
    exact Json.obj.inj hobj
  · rintro rfl
    exact List.forall₂_same.2 fun _ _ => ⟨rfl, rfl⟩

theorem states_erasing (s : Statement) : erasing.States s :=
  ⟨trivial, fun _ _ => trivial, fun _ _ => trivial, fun _ _ => ⟨fun _ => rfl, fun _ => rfl⟩⟩

end Alignment

theorem Nested.Mirrored.bodies {n n' : Nested} (h : n.Mirrored n') : Alignment.erasing.Bodies n n' := by
  have hrecord {m m' : CompileM Record} (hm : Mirrors id m m') :
      Echoes Alignment.erasing.record (liftM m) (liftM m') :=
        hm.lift.echoes fun _ => Alignment.record_erasing.2 rfl
  have hlist {m m' : CompileM (List Json)} (hm : Mirrors id m m') :
      Echoes (List.Forall₂ fun x y => y = x) (liftM m) (liftM m') :=
    hm.lift.echoes fun xs => List.forall₂_same.2 fun _ _ => rfl
  have hsame (list : Option (List Json)) : Option.Rel (List.Forall₂ fun x y => y = x) list list := by
    cases list with
    | none => exact .none
    | some xs => exact .some (List.forall₂_same.2 fun _ _ => rfl)
  exact
    { fields := hrecord (h.fields [])
      conditions := hlist h.conditions
      mutations := hlist h.mutations
      path := fun span _ => hrecord (h.path span)
      branches := h.branches.lift.echoes fun b => ⟨hsame _, hsame _, hsame _⟩
      aliasField := fun name => hrecord (mirrors_aliasField name) }

namespace Condition

theorem Keyword.tries_fields (k : Keyword) (s : Statement) {n n' : Nested} (h : n.Mirrored n') :
    Tries id (k.fields s n) (k.fields s.erased n') :=
  (k.reads_fields (Alignment.states_erasing s) fun _ => h.bodies).tries fun _ _ =>
    Alignment.record_erasing.1

theorem tries_compile (s : Statement) {n n' : Nested} (h : n.Mirrored n') :
    Tries id (compile s n) (compile s.erased n') :=
  (reads_compile (Alignment.states_erasing s) h.bodies).tries fun _ _ => id

end Condition

namespace Filter

theorem tries_relationshipFields (s : Statement) :
    Tries id (relationshipFields s) (relationshipFields s.erased) :=
  (reads_relationshipFields (Alignment.states_erasing s)).tries fun _ _ => Alignment.record_erasing.1

theorem tries_compile (s : Statement) {n n' : Nested} (h : n.Mirrored n') :
    Tries id (compile s n) (compile s.erased n') :=
  (reads_compile (Alignment.states_erasing s) h.bodies).tries fun _ _ => id

end Filter

namespace Mutation

theorem tries_compile (s : Statement) {n n' : Nested} (h : n.Mirrored n') :
    Tries id (compile s n) (compile s.erased n') := by
  refine (reads_compile (Alignment.states_erasing s) ?_ h.bodies).tries fun _ _ => id
  cases s with
  | rel key label kind source target values span =>
    have hrel := Statement.tries_relationship true key label kind source target values span
    exact hrel.echoes fun _ => Alignment.record_erasing.2 rfl
  | _ => exact trivial

theorem mirrors_branch (c : Child) {n : Nested} (h : c.2.Mirrored n) (b : Branches) :
    Mirrors id (branch c b) (branch (c.1.erased, n) b) := by
  fun_cases branch c b with
  | case1 body span nested => exact h.conditions.bind fun _ => mirrors_pure rfl
  | case2 body span nested => exact h.mutations.bind fun _ => mirrors_pure rfl
  | case3 body span nested => exact h.mutations.bind fun _ => mirrors_pure rfl
  | case4 s nested b hwhen hthen helse =>
    have hblock {name : String} {body : List Statement} {span : Span}
        (hs : ∀ body span, s = .block name false [] body span → False)
        (heq : s.erased = .block name false [] body span) : False := by
      obtain ⟨labels, _, _, rfl, hlabels⟩ := Statement.relocate_eq_block heq
      rw [List.map_eq_nil_iff] at hlabels
      subst hlabels
      exact hs _ _ rfl
    rw [branch.eq_4]
    · exact (mirrors_unknownKeyword _ s).bind fun _ => mirrors_pure rfl
    · exact fun _ _ => hblock hwhen
    · exact fun _ _ => hblock hthen
    · exact fun _ _ => hblock helse

end Mutation

/-! ## Path assertions -/

namespace Path

theorem leadingAlias_erased (args : Args) :
    leadingAlias args.erased = erasing id (leadingAlias args) := by
  rcases args with ⟨w, span, _ | ⟨v, rest⟩⟩
  · rfl
  · cases v with
    | name token span =>
      simp only [erased, relocate, List.map_cons, Value.relocate, leadingAlias]
      cases Scope.hasSigil token <;> rfl
    | _ => rfl

theorem tries_step (s : Statement) {n n' : Nested} (h : n.Mirrored n') :
    Tries id (step s n) (step s.erased n') := by
  unfold step
  rw [of_relocate, leadingAlias_erased]
  rcases leadingAlias (Args.of s) with ⟨name, args⟩
  simp only [erasing, marker_relocate]
  rcases args.marker "via" with ⟨_, args⟩
  refine (args.tries_text _).bind ?_
  rintro ⟨kind, args⟩
  refine (args.tries_text _).bind ?_
  rintro ⟨direction, args⟩
  refine (args.tries_text _).bind ?_
  rintro ⟨targetKind, args⟩
  refine (args.tries_text _).bind ?_
  rintro ⟨targetSubtype, args⟩
  simp only [erasing, text?_relocate]
  refine args.text?.2.tries_finish.bind fun _ => ?_
  refine (mirrors_aliasField name).lift.bind fun bound => ?_
  exact (h.step _).lift.bind fun record => tries_pure rfl

theorem tries_stepStatus (s : Statement) (r : Record) :
    Tries id (stepStatus s r) (stepStatus s.erased r) := by
  unfold stepStatus
  rw [of_relocate, Statement.span_relocate]
  refine ((Args.of s).tries_text _).bind ?_
  rintro ⟨status, args⟩
  exact args.tries_finish.bind fun _ => (mirrors_setField _ _ _ r).lift

theorem mirrors_stepPart (c : Child) {n : Nested} (h : c.2.Mirrored n) (r : Record) :
    Mirrors id (stepPart c r) (stepPart (c.1.erased, n) r) := by
  fun_cases stepPart c r with
  | case1 labels value span nested => exact mirrors_orElseKeep (tries_stepStatus _ r) r
  | case2 labels body span nested => exact h.filters.bind fun found => mirrors_setField _ _ span r
  | case3 s nested r hstatus hfilters =>
    rw [stepPart.eq_3]
    · exact (mirrors_unknownKeyword _ s).bind fun _ => mirrors_pure rfl
    · intro _ _ _ heq
      obtain ⟨_, _, _, rfl, -⟩ := Statement.relocate_eq_field heq
      exact hstatus _ _ _ rfl
    · intro _ _ _ heq
      obtain ⟨_, _, _, rfl, -⟩ := Statement.relocate_eq_block heq
      exact hfilters _ _ _ rfl

theorem tries_membership (name : String) (s : Statement) :
    Tries id (membership name s) (membership name s.erased) := by
  unfold membership
  rw [of_relocate]
  refine ((Args.of s).tries_value _).bind ?_
  rintro ⟨set, args⟩
  refine (mirrors_reference set).lift.bind fun set => ?_
  exact args.tries_finish.bind fun _ => tries_pure rfl

theorem tries_equality (field : String) (s : Statement) :
    Tries id (equality field s) (equality field s.erased) := by
  unfold equality
  rw [of_relocate]
  refine ((Args.of s).tries_text _).bind ?_
  rintro ⟨value, args⟩
  exact args.tries_finish.bind fun _ => tries_pure rfl

theorem tries_relationship (name : String) (s : Statement) :
    Tries id (relationship name s) (relationship name s.erased) :=
  (Filter.tries_relationshipFields s).bind fun _ => tries_pure rfl

theorem tries_constraint (s : Statement) {n n' : Nested} (h : n.Mirrored n') :
    Tries id (constraint s n) (constraint s.erased n') := by
  fun_cases constraint s n with
  | case1 => exact tries_pure rfl
  | case2 => exact tries_membership "in" _
  | case3 => exact tries_membership "not_in" _
  | case4 => exact tries_relationship "has_relationship" _
  | case5 => exact tries_relationship "lacks_relationship" _
  | case6 => exact tries_equality "kind" _
  | case7 => exact tries_equality "subtype" _
  | case8 => exact (h.fields []).lift.bind fun _ => tries_pure rfl
  | case9 _ _ hself hin hnotIn hhas hlacks hkind hsubtype hother =>
    have hfield {key : String} {labels : List Value} {value : Value} {span : Span}
        (hs : ∀ labels value span, s = .field key false labels value span → False)
        (heq : s.erased = .field key false labels value span) : False := by
      obtain ⟨_, _, _, rfl, -⟩ := Statement.relocate_eq_field heq
      exact hs _ _ _ rfl
    rw [constraint.eq_9]
    · exact tries_unknownKeyword _ s
    · intro _ _ heq
      obtain ⟨_, _, rfl⟩ := Statement.relocate_eq_bare_name heq
      exact hself _ _ rfl
    · intro _ _ heq
      obtain ⟨_, _, rfl⟩ := Statement.relocate_eq_within heq
      exact hin _ _ rfl
    · exact fun _ _ _ => hfield hnotIn
    · exact fun _ _ _ => hfield hhas
    · exact fun _ _ _ => hfield hlacks
    · exact fun _ _ _ => hfield hkind
    · exact fun _ _ _ => hfield hsubtype
    · intro _ _ heq
      obtain ⟨labels, _, _, rfl, hlabels⟩ := Statement.relocate_eq_block heq
      rw [List.map_eq_nil_iff] at hlabels
      subst hlabels
      exact hother _ _ rfl

theorem tries_check (s : Statement) (r : Record) : Tries id (check s r) (check s.erased r) := by
  unfold check
  rw [of_relocate, Statement.span_relocate]
  refine ((Args.of s).tries_text _).bind ?_
  rintro ⟨found, args⟩
  refine tries_unless rfl _ ?_
  exact args.tries_finish.bind fun _ => (mirrors_setField _ _ _ r).lift

theorem tries_count (s : Statement) (r : Record) : Tries id (count s r) (count s.erased r) := by
  unfold count
  rw [Statement.comparison?_relocate, Statement.span_relocate]
  cases s.comparison? with
  | none => exact tries_reject rfl _
  | some comparison => exact (tries_boundFields _ _).bind fun bounds => (mirrors_setField _ _ _ r).lift

theorem mirrors_part (c : Child) {n : Nested} (h : c.2.Mirrored n) (d : Draft) :
    Mirrors id (part c d) (part (c.1.erased, n) d) := by
  obtain ⟨s, nested⟩ := c
  unfold part
  simp only [Statement.plainKeyword?_relocate, Statement.isBlock_relocate, Statement.span_relocate]
  refine Mirrors.ite (fun _ => ?_) fun _ => Mirrors.ite (fun _ => ?_) fun _ =>
    Mirrors.ite (fun _ => ?_) fun _ =>
    Mirrors.ite (fun _ => ?_) fun _ => ?_
  · exact (mirrors_orElseKeep (tries_check s d.record) d.record).bind fun _ => mirrors_pure rfl
  · refine (tries_step s h).run.bind fun found => mirrors_pure ?_
    rw [Option.map_id]
    rfl
  · exact (mirrors_orElseKeep (tries_count s d.record) d.record).bind fun _ => mirrors_pure rfl
  · refine h.constraints.bind fun found => ?_
    exact (mirrors_setField _ _ s.span d.record).bind fun _ => mirrors_pure rfl
  · exact (mirrors_unknownKeyword _ s).bind fun _ => mirrors_pure rfl

end Path

/-! ## Selections and variables -/

namespace Selector

theorem tries_pick (s : Statement) (r : Record) : Tries id (pick s r) (pick s.erased r) := by
  unfold pick
  rw [of_relocate, Statement.span_relocate]
  refine ((Args.of s).tries_text _).bind ?_
  rintro ⟨strategy, args⟩
  exact args.tries_finish.bind fun _ => (mirrors_setField _ _ _ r).lift

theorem tries_most (s : Statement) (r : Record) : Tries id (most s r) (most s.erased r) := by
  unfold most
  rw [of_relocate, Statement.span_relocate]
  refine ((Args.of s).tries_number _).bind ?_
  rintro ⟨n, args⟩
  exact args.tries_finish.bind fun _ => (mirrors_setField _ _ _ r).lift

theorem mirrors_single (key field : String) (value : Value) (span : Span) (r : Record) :
    Mirrors id (single key field value span r) (single key field value.erased .nowhere r) := by
  cases value with
  | array items inner =>
    unfold single
    rw [Value.erased, Value.literal_relocate]
    exact mirrors_setField _ _ span r
  | str text inner => exact mirrors_setField key _ span r
  | name text inner => exact mirrors_setField key _ span r
  | _ => exact (mirrors_report _ _ _ rfl).bind fun _ => mirrors_pure rfl

theorem mirrors_field (key : String) (labels : List Value) (value : Value) (span : Span) (r : Record) :
    Mirrors id (field key labels value span r)
      (field key (labels.map Value.erased) value.erased .nowhere r) := by
  have hs : Statement.field key false (labels.map Value.erased) value.erased .nowhere =
    (Statement.field key false labels value span).erased := rfl
  unfold field
  simp only [hs, of_relocate, flat_relocate, Value.literals_relocate, List.isEmpty_map]
  refine Mirrors.ite (fun _ => mirrors_orElseKeep (tries_pick _ r) r) fun _ => ?_
  refine Mirrors.ite (fun _ => mirrors_orElseKeep (tries_most _ r) r) fun _ => ?_
  cases plural? key with
  | none => exact (mirrors_unknownKeyword _ _).bind fun _ => mirrors_pure rfl
  | some plural =>
    refine Mirrors.ite (fun _ => mirrors_single key plural value span r) fun _ => ?_
    exact mirrors_setField plural _ span r

theorem tries_saturation (s : Statement) (direction : String) (comparator : Comparator) (n : Number)
    (upper : Option Number) (r : Record) :
    Tries id (saturation s direction comparator n upper r)
      (saturation s.erased direction comparator n upper r) := by
  unfold saturation
  rw [of_relocate, Statement.span_relocate]
  refine tries_unless rfl _ ?_
  refine ((Args.of s).tries_text _).bind ?_
  rintro ⟨kind, args⟩
  simp only [erasing, text?_relocate]
  exact args.text?.2.tries_finish.bind fun _ => tries_pure rfl

theorem tries_origin (source : Value) (via : Option (Value × Value)) (span : Span) :
    Tries id (origin source via span)
      (origin source.erased (via.map fun p => (p.1.erased, p.2.erased)) .nowhere) := by
  rcases via with _ | ⟨kind, direction⟩
  · unfold origin
    rw [Value.isWord_relocate]
    exact Tries.ite (fun _ => tries_pure rfl) fun _ => (mirrors_reference source).lift
  · simp only [origin, Option.map_some, Value.text?_relocate]
    cases kind.text? with
    | none => exact tries_reject rfl _
    | some kind =>
      cases direction.text? with
      | none => exact tries_reject rfl _
      | some direction => exact (mirrors_reference source).lift.bind fun _ => tries_pure rfl

theorem mirrors_part (c : Child) {n : Nested} (h : c.2.Mirrored n) (r : Record) :
    Mirrors id (part c r) (part (c.1.erased, n) r) := by
  obtain ⟨s, nested⟩ := c
  have hunknown : Mirrors id (do unknownKeyword "selector statement" s; return r)
      (do unknownKeyword "selector statement" s.erased; return r) :=
    (mirrors_unknownKeyword _ s).bind fun _ => mirrors_pure rfl
  cases s with
  | field key quoted labels value span =>
    cases quoted with
    | true =>
      simp only [part, Statement.relocate, Value.fieldLiteral_relocate]
      exact mirrors_setField key _ span r
    | false => exact mirrors_field key labels value span r
  | block name quoted labels body span =>
    cases quoted with
    | true => exact (h.fields []).bind fun _ => mirrors_setField name _ span r
    | false =>
      simp only [part, Statement.relocate, List.isEmpty_map]
      exact Mirrors.ite (fun _ => h.filters.bind fun _ => mirrors_pure rfl) fun _ => hunknown
  | within key items span =>
    cases key with
    | none => exact hunknown
    | some key =>
      simp only [part, Statement.relocate, Value.literals_relocate]
      cases plural? key with
      | none => exact hunknown
      | some plural => exact mirrors_setField plural _ span r
  | predicate direction args comparator number upper span =>
    exact Mirrors.ite (fun _ =>
      mirrors_orElseKeep (tries_saturation _ direction comparator number upper r) r)
      fun _ => hunknown
  | origin source via span =>
    refine mirrors_orElseKeep ?_ r
    exact (tries_origin source via span).bind fun found => (mirrors_setField _ _ span r).lift
  | rel | mutate | bare => exact hunknown

theorem mirrors_requiredFlag (value : Value) (held : Option Bool) :
    Mirrors id (requiredFlag value held) (requiredFlag value.erased held) := by
  unfold requiredFlag
  rw [Value.bool?_relocate, Value.describe_relocate, Value.span_relocate]
  cases value.bool? with
  | some flag => exact mirrors_pure rfl
  | none => exact (mirrors_report _ _ _ rfl).bind fun _ => mirrors_pure rfl

theorem mirrors_bindingPart (c : Child) {n : Nested} (h : c.2.Mirrored n) (b : Binding) :
    Mirrors id (bindingPart c b) (bindingPart (c.1.erased, n) b) := by
  fun_cases bindingPart c b with
  | case1 body span nested => exact (h.selection b.select).bind fun _ => mirrors_pure rfl
  | case2 value span nested =>
    exact (mirrors_requiredFlag value b.required).bind fun _ => mirrors_pure rfl
  | case3 inner span nested => exact mirrors_pure rfl
  | case4 c b hselect hrequired hflag =>
    rw [bindingPart.eq_4]
    · exact (mirrors_part c h b.select).bind fun _ => mirrors_pure rfl
    · rintro _ _ _ heq
      obtain ⟨labels, _, _, hc, hlabels⟩ := Statement.relocate_eq_block (congrArg Prod.fst heq)
      rw [List.map_eq_nil_iff] at hlabels
      subst hlabels
      exact hselect _ _ c.2 (Prod.ext hc rfl)
    · rintro _ _ _ heq
      obtain ⟨labels, _, _, hc, hlabels⟩ := Statement.relocate_eq_field (congrArg Prod.fst heq)
      rw [List.map_eq_nil_iff] at hlabels
      subst hlabels
      exact hrequired _ _ c.2 (Prod.ext hc rfl)
    · rintro _ _ _ heq
      obtain ⟨_, _, hc⟩ := Statement.relocate_eq_bare_name (congrArg Prod.fst heq)
      exact hflag _ _ c.2 (Prod.ext hc rfl)

theorem mirrors_bindingPairs : ∀ (vs : List Value) (b : Binding),
    Mirrors id (bindingPairs vs b) (bindingPairs (vs.map Value.erased) b)
  | [], _ | [_], _ => mirrors_pure rfl
  | key :: value :: rest, b => by
    simp only [List.map_cons, bindingPairs, Value.text?_relocate, Value.span_relocate,
      Span.join_nowhere, pure_bind]
    refine Mirrors.ite (fun _ => ?_) fun _ => ?_
    · exact (mirrors_requiredFlag value b.required).bind fun _ => mirrors_bindingPairs rest _
    · exact (mirrors_field _ [] value _ b.select).bind fun _ => mirrors_bindingPairs rest _

theorem tries_bindingOf (s : Statement) {n n' : Nested} (h : n.Mirrored n') (name : String)
    (more : List Value) :
    Tries id (bindingOf s n name more) (bindingOf s.erased n' name (more.map Value.erased)) := by
  unfold bindingOf
  rw [Statement.isBlock_relocate, Value.pairs?_relocate, Option.isNone_map, Statement.keyword_relocate,
    Statement.span_relocate]
  refine Tries.ite (fun _ => ?_) fun _ => Tries.ite (fun _ => tries_reject rfl _) fun _ => ?_
  · cases more with
    | nil => exact h.binding.lift
    | cons extra more =>
      refine (mirrors_report _ _ _ ?_).lift.bind fun _ => h.binding.lift
      exact extra.span_relocate _
  · exact (mirrors_bindingPairs more _).lift

theorem tries_declaration (s : Statement) {n n' : Nested} (h : n.Mirrored n') (r : Record) :
    Tries id (declaration s n r) (declaration s.erased n' r) := by
  unfold declaration
  rw [Statement.positional_relocate, Statement.keyword_relocate, Statement.span_relocate]
  cases s.positional with
  | nil => exact tries_reject rfl _
  | cons first more =>
    simp only [List.map_cons, Value.text?_relocate]
    cases first.text? with
    | none => exact tries_reject rfl _
    | some name =>
      refine (tries_bindingOf s h name more).bind fun b => ?_
      refine (mirrors_declare name).lift.bind fun reference => ?_
      exact (mirrors_setEntry _ _ _ s.span r).lift

end Selector

/-! ## Record bodies -/

namespace Body

theorem tries_creation (s : Statement) {n n' : Nested} (h : n.Mirrored n') (r : Record) :
    Tries id (creation s n r) (creation s.erased n' r) := by
  unfold creation
  rw [Statement.positional_relocate, Statement.isBlock_relocate, Statement.span_relocate]
  cases s.positional with
  | nil => exact tries_pure rfl
  | cons first more =>
    refine (tries_rowText _ first).bind fun name => ?_
    refine (mirrors_declare name).lift.bind fun reference => ?_
    refine Tries.ite (fun _ => ?_) fun _ => ?_
    · cases more with
      | nil => exact (h.fields _).lift.bind fun _ => tries_pure rfl
      | cons extra more =>
        refine (mirrors_report _ _ _ (extra.span_relocate _)).lift.bind fun _ => ?_
        exact (h.fields _).lift.bind fun _ => tries_pure rfl
    · exact (tries_pairFields more s.span _).bind fun _ => tries_pure rfl

theorem mirrors_rejectLabels (name : String) (labels : List Value) :
    Mirrors id (rejectLabels name labels) (rejectLabels name (labels.map Value.erased)) := by
  cases labels with
  | nil => exact mirrors_pure rfl
  | cons first more => exact mirrors_report _ _ _ (first.span_relocate _)

theorem mirrors_objectBlock (name : String) (labels : List Value) (object : Json) (span : Span)
    (r : Record) : Mirrors id (objectBlock name labels object span r)
      (objectBlock name (labels.map Value.erased) object .nowhere r) := by
  rcases labels with _ | ⟨label, _ | ⟨extra, more⟩⟩
  · exact mirrors_setField name object span r
  · simp only [objectBlock, List.map_cons, List.map_nil, Value.text?_relocate, Value.describe_relocate]
    cases label.text? with
    | some text => exact mirrors_setEntry name text object span r
    | none => exact (mirrors_report _ _ _ (label.span_relocate _)).bind fun _ => mirrors_pure rfl
  · exact (mirrors_report _ _ _ (extra.span_relocate _)).bind fun _ => mirrors_pure rfl

theorem mirrors_block (s : Statement) (name : String) (labels : List Value) {n n' : Nested}
    (h : n.Mirrored n') (r : Record) :
    Mirrors id (block s name labels n r) (block s.erased name (labels.map Value.erased) n' r) := by
  unfold block
  rw [Statement.span_relocate]
  refine Mirrors.ite (fun _ => ?_) fun _ => Mirrors.ite (fun _ => ?_) fun _ =>
    Mirrors.ite (fun _ => ?_) fun _ =>
    Mirrors.ite (fun _ => ?_) fun _ => Mirrors.ite (fun _ => ?_) fun _ =>
      Mirrors.ite (fun _ => ?_) fun _ => ?_
  · exact (mirrors_rejectLabels name labels).bind fun _ => h.conditions.bind fun _ => mirrors_pure rfl
  · exact (mirrors_rejectLabels name labels).bind fun _ => h.filters.bind fun _ => mirrors_pure rfl
  · exact (mirrors_rejectLabels name labels).bind fun _ => h.mutations.bind fun _ => mirrors_pure rfl
  · refine (mirrors_rejectLabels name labels).bind fun _ => (h.selection []).bind fun _ => ?_
    exact mirrors_setField name _ s.span r
  · exact mirrors_orElseKeep (Selector.tries_declaration s h r) r
  · exact mirrors_orElseKeep (tries_creation s h r) r
  · exact (h.fields []).bind fun _ => mirrors_objectBlock name labels _ s.span r

theorem mirrors_field (s : Statement) (key : String) (labels : List Value) (value : Value)
    {n n' : Nested} (h : n.Mirrored n') (r : Record) :
    Mirrors id (field s key labels value n r)
      (field s.erased key (labels.map Value.erased) value.erased n' r) := by
  unfold field
  rw [Statement.span_relocate, List.isEmpty_map, Value.fieldLiteral_relocate]
  refine Mirrors.ite (fun _ => ?_) fun _ => Mirrors.ite (fun _ => ?_) fun _ =>
    Mirrors.ite (fun _ => ?_) fun _ => ?_
  · exact mirrors_orElseKeep (tries_creation s h r) r
  · exact mirrors_orElseKeep (Selector.tries_declaration s h r) r
  · exact (mirrors_fieldValue key value).bind fun _ => mirrors_setField key _ s.span r
  · exact mirrors_setField key _ s.span r

theorem mirrors_part (c : Child) {n : Nested} (h : c.2.Mirrored n) (r : Record) :
    Mirrors id (part c r) (part (c.1.erased, n) r) := by
  obtain ⟨s, nested⟩ := c
  cases s with
  | field key quoted labels value span =>
    cases quoted with
    | true =>
      simp only [part, Statement.relocate, Value.fieldLiteral_relocate]
      exact mirrors_setField key _ span r
    | false => exact mirrors_field (.field key false labels value span) key labels value h r
  | block name quoted labels body span =>
    cases quoted with
    | true => exact (h.fields []).bind fun _ => mirrors_objectBlock name labels _ span r
    | false => exact mirrors_block (.block name false labels body span) name labels h r
  | rel key label kind source target values span =>
    refine (Statement.tries_relationship false key label kind source target values span).run.bind
      fun entry => ?_
    cases entry <;> exact mirrors_pure rfl
  | mutate target id change amount span =>
    refine (Mutation.tries_compile (.mutate target id change amount span) h).run.bind fun mutation => ?_
    cases mutation <;> exact mirrors_pure rfl
  | predicate | within | origin => exact (mirrors_report _ _ _ rfl).bind fun _ => mirrors_pure rfl
  | bare value span =>
    cases value with
    | name name inner =>
      refine Mirrors.ite (fun _ => ?_) fun _ => mirrors_setField name _ span r
      exact (mirrors_report _ _ _ rfl).bind fun _ => mirrors_pure rfl
    | _ => exact (mirrors_report _ _ _ rfl).bind fun _ => mirrors_pure rfl

end Body

/-! ## The knot -/

def ChildrenMirrored (cs cs' : List Child) : Prop :=
  List.Forall₂ (fun c c' => ∃ n, c' = (c.1.erased, n) ∧ c.2.Mirrored n) cs cs'

theorem Nested.mirrored_ofBody {cs cs' : List Child} (h : ChildrenMirrored cs cs') :
    (Nested.ofBody cs).Mirrored (Nested.ofBody cs') := by
  have hcollect {attempt : Statement → Nested → Attempt Json}
      (ha : ∀ s {n n'}, Nested.Mirrored n n' → Tries id (attempt s n) (attempt s.erased n')) :
      Mirrors id (collect (fun c : Child => attempt c.1 c.2) cs)
        (collect (fun c : Child => attempt c.1 c.2) cs') := by
    rw [← List.map_id_fun]
    refine mirrors_collect (h.imp ?_)
    rintro c _ ⟨n, rfl, hn⟩
    exact ha c.1 hn
  have hthread {σ : Type} {step : Child → σ → CompileM σ}
      (hs : ∀ (c : Child) {n : Nested}, c.2.Mirrored n → ∀ state,
        Mirrors id (step c state) (step (c.1.erased, n) state))
      (state : σ) : Mirrors id (thread step cs state) (thread step cs' state) := by
    refine mirrors_thread (h.imp ?_) state
    rintro c _ ⟨n, rfl, hn⟩
    exact hs c hn
  exact
    { fields := hthread Body.mirrors_part
      conditions := hcollect Condition.tries_compile
      filters := hcollect Filter.tries_compile
      mutations := hcollect Mutation.tries_compile
      constraints := hcollect Path.tries_constraint
      path := fun span => by
        refine (hthread Path.mirrors_part ⟨[], []⟩).bind fun d => ?_
        refine Mirrors.ite (fun _ => ?_) fun _ => mirrors_pure rfl
        exact (mirrors_report _ _ _ rfl).bind fun _ => mirrors_pure rfl
      step := hthread Path.mirrors_stepPart
      selection := hthread Selector.mirrors_part
      binding := hthread Selector.mirrors_bindingPart ⟨[], none⟩
      branches := hthread Mutation.mirrors_branch ⟨none, none, none⟩ }

mutual

theorem Statement.mirrored_nested : ∀ s : Statement, s.nested.Mirrored s.erased.nested
  | .block _ _ _ body _ => Nested.mirrored_ofBody (Statement.mirrored_children body)
  | .field .. | .rel .. | .mutate .. | .predicate .. | .within .. | .origin .. | .bare .. =>
    Nested.mirrored_ofBody .nil

theorem Statement.mirrored_children : ∀ ss : List Statement,
    ChildrenMirrored (Statement.children ss) (Statement.children
      (Statement.relocateAll (fun _ => .nowhere) ss))
  | [] => .nil
  | s :: rest => .cons ⟨_, rfl, Statement.mirrored_nested s⟩ (Statement.mirrored_children rest)

end

end Worldbook
