import Worldbook.Proofs.Lifting

/-!
# Every language lifts

One lemma for each kind of statement says that it lifts if the readings of its body
do. The last section ties the languages together by recursion over statements.
-/

namespace Worldbook

open CompileM

def Binding.Raised (names : List String) (b b' : Binding) : Prop :=
  Record.Raised names b.select b'.select ∧ b.required = b'.required

structure Branches.Raised (names : List String) (b b' : Branches) : Prop where
  conditions : Option.Rel (List.Forall₂ (Json.Raised names false)) b.conditions b'.conditions
  consequence : Option.Rel (List.Forall₂ (Json.Raised names false)) b.consequence b'.consequence
  alternative : Option.Rel (List.Forall₂ (Json.Raised names false)) b.alternative b'.alternative

structure Path.Draft.Raised (names : List String) (d d' : Path.Draft) : Prop where
  record : Record.Raised names d.record d'.record
  steps : List.Forall₂ (Json.Raised names false) d.steps d'.steps

instance (names : List String) : Std.Refl (Binding.Raised names) := ⟨fun b => ⟨.refl b.select, rfl⟩⟩

instance (names : List String) : Std.Refl (Branches.Raised names) :=
  ⟨fun _ => ⟨Std.Refl.refl _, Std.Refl.refl _, Std.Refl.refl _⟩⟩

instance (names : List String) : Std.Refl (Path.Draft.Raised names) :=
  ⟨fun d => ⟨.refl d.record, Std.Refl.refl d.steps⟩⟩

structure Nested.Lifting (names : List String) (n : Nested) : Prop where
  fields : ∀ {r r'}, Record.Raised names r r' → Lifts (Record.Raised names) (n.fields r) (n.fields r')
  conditions : Lifts (List.Forall₂ (Json.Raised names false)) n.conditions n.conditions
  filters : Lifts (List.Forall₂ (Json.Raised names false)) n.filters n.filters
  mutations : Lifts (List.Forall₂ (Json.Raised names false)) n.mutations n.mutations
  constraints : Lifts (List.Forall₂ (Json.Raised names false)) n.constraints n.constraints
  path : ∀ span, Lifts (Record.Raised names) (n.path span) (n.path span)
  step : ∀ {r r'}, Record.Raised names r r' → Lifts (Record.Raised names) (n.step r) (n.step r')
  selection : ∀ {r r'}, Record.Raised names r r' →
    Lifts (Record.Raised names) (n.selection r) (n.selection r')
  binding : Lifts (Binding.Raised names) n.binding n.binding
  branches : Lifts (Branches.Raised names) n.branches n.branches

section
variable {names : List String} {r r' : Record}

theorem Record.Raised.list {key : String} (hkey : isReferenceKey key = false) {xs ys : List Json}
    (h : List.Forall₂ (Json.Raised names false) xs ys) : Record.Raised names [(key, .arr xs)]
    [(key, .arr ys)] := by
  refine .singleton key ?_
  rw [hkey]
  exact .arr (Json.raisedItems_iff.2 h)

theorem Record.Raised.reference {key : String} (hkey : isReferenceKey key = true) {v w : Json}
    (h : Json.Raised names true v w) : Record.Raised names [(key, v)] [(key, w)] := by
  refine .singleton key ?_
  rw [hkey]
  exact h

theorem lifts_unknownKeyword {σ : Type} {R : σ → σ → Prop} (language : String) (s : Statement) {a b : σ}
    (h : R a b) :
    Lifts R (do unknownKeyword language s; return a) (do unknownKeyword language s; return b) := by
  unfold unknownKeyword
  exact lifts_report_bind (lifts_pure h)

end

/-! ## Keywords -/

section
variable {α β γ δ : Type} {R : α → β → Prop} {R' : γ → δ → Prop}

/-- `Rises` for results of any two kinds. Whatever the first attempt gives
has a counterpart, so that what comes next runs even after an error. -/
def RisesTo (R : α → β → Prop) (m : Attempt α) (n : Attempt β) : Prop :=
  ∀ s t, s.names ⊆ t.names → ∃ r s' new, Runs m.run s r s' new ∧ s.names <+: s'.names ∧
    (∀ a, r = some a → ∃ b, R a b) ∧
    (NoErrors new → ∃ a b t', r = some a ∧ Runs n.run t (some b) t' new ∧ s'.names ⊆ t'.names ∧ R a b)

theorem Rises.risesTo {R : α → α → Prop} [Std.Refl R] {m n : Attempt α} (h : Rises R m n) :
    RisesTo R m n := by
  intro s t hst
  obtain ⟨r, s', new, hrun, hgrows, hlift⟩ := h s t hst
  refine ⟨r, s', new, hrun, hgrows, fun a _ => ⟨a, Std.Refl.refl a⟩, ?_⟩
  intro hnew
  obtain ⟨_, t', hrun', hst', a, b, rfl, rfl, hab⟩ := hlift hnew
  exact ⟨a, b, t', rfl, hrun', hst', hab⟩

theorem RisesTo.rises {R : α → α → Prop} {m n : Attempt α} (h : RisesTo R m n) : Rises R m n := by
  intro s t hst
  obtain ⟨r, s', new, hrun, hgrows, -, hlift⟩ := h s t hst
  refine ⟨r, s', new, hrun, hgrows, ?_⟩
  intro hnew
  obtain ⟨a, b, t', ha, hrun', hst', hab⟩ := hlift hnew
  exact ⟨some b, t', hrun', hst', a, b, ha, rfl, hab⟩

theorem risesTo_pure {a : α} {b : β} (h : R a b) : RisesTo R (pure a) (pure b) := by
  intro s t hst
  refine ⟨some a, s, [], runs_pure _ s, List.prefix_refl _, ?_, fun _ =>
    ⟨a, b, t, rfl, runs_pure _ t, hst, h⟩⟩
  rintro _ ⟨⟩
  exact ⟨b, h⟩

theorem risesTo_reject {p : Problem} (hp : p.severity = .error) (span : Span) :
    RisesTo R (reject p span) (reject p span) := by
  intro s t _
  refine ⟨none, s, [p.reported span], fun _ => rfl, List.prefix_refl _, nofun, fun hnew => ?_⟩
  exact hnew.absurd ⟨_, List.mem_singleton_self _, decide_eq_true hp⟩

theorem RisesTo.bind {m : Attempt α} {n : Attempt β} {k : α → Attempt γ} {k' : β → Attempt δ}
    (hm : RisesTo R m n) (hk : ∀ a b, R a b → RisesTo R' (k a) (k' b)) :
    RisesTo R' (m >>= k) (n >>= k') := by
  intro s t hst
  rw [OptionT.run_bind, OptionT.run_bind]
  obtain ⟨r, s₁, new, hrun, hgrows, hmeets, hlift⟩ := hm s t hst
  cases r with
  | none =>
    refine ⟨none, s₁, new ++ [], hrun.bind (runs_pure none s₁), hgrows, nofun, fun hnew => ?_⟩
    obtain ⟨_, _, _, hnone, -⟩ := hlift hnew.of_append.1
    cases hnone
  | some a =>
    obtain ⟨b, hab⟩ := hmeets a rfl
    obtain ⟨r', s₂, more, hrun', hgrows', hmeets', -⟩ := hk a b hab s₁ s₁ (List.Subset.refl _)
    refine ⟨r', s₂, new ++ more, hrun.bind hrun', hgrows.trans hgrows', hmeets', fun hnew => ?_⟩
    obtain ⟨hfirst, hmore⟩ := hnew.of_append
    obtain ⟨_, b, t₁, ⟨⟩, hrunt, hst₁, hab⟩ := hlift hfirst
    -- The second side goes on from what it gave itself, with more bindings.
    obtain ⟨_, _, _, hrunk, -, -, hlift'⟩ := hk a b hab s₁ t₁ hst₁
    obtain ⟨rfl, rfl, rfl⟩ := hrun'.eq hrunk
    obtain ⟨c, d, t₂, hc, hrund, hst₂, hcd⟩ := hlift' hmore
    exact ⟨c, d, t₂, hc, hrunt.bind hrund, hst₂, hcd⟩

end

def Alignment.raising (names : List String) : Alignment where
  move := id
  span _ := True
  value v := v.bareNames ⊆ names
  json := Json.Raised names
  Reads := RisesTo
  span_value _ := trivial
  literal place _ := .same place _
  items h := among_iff.2 h
  str place _ := .same place _
  arr h := .arr (Json.raisedItems_iff.2 h)
  obj h := .obj (Json.raisedMembers_iff.2 h)
  pure := risesTo_pure
  bind := RisesTo.bind
  reject hp _ _ := risesTo_reject hp _
  reference {v} h := by
    rw [Value.relocate_id]
    exact (lifts_reference h).lift.risesTo
  required {v} _ := by
    have hrefl : Std.Refl fun x y => ∀ place, Json.Raised names place x y :=
      ⟨fun x place => .same place x⟩
    rw [Value.relocate_id]
    exact ((rises_requiredReference v).imp fun x y hxy place => hxy ▸ .same place x).risesTo

namespace Alignment

variable {names : List String}

theorem relocate_raising (s : Statement) : s.relocate (raising names).move = s := s.relocate_id

theorem record_raising {r r' : Record} : (raising names).record r r' ↔ Record.Raised names r r' :=
  Json.raisedMembers_iff.symm

instance : Std.Refl (raising names).record := ⟨fun r => record_raising.2 (.refl r)⟩

instance : Std.Refl (raising names).branches where
  refl b := by
    have hlist : Std.Refl (Option.Rel (List.Forall₂ (Json.Raised names false))) := inferInstance
    exact ⟨hlist.refl _, hlist.refl _, hlist.refl _⟩

theorem states_raising {s : Statement} (hs : Among names s.positional) : (raising names).States s where
  span := trivial
  spans _ _ := trivial
  values := hs
  amounts _ _ := ⟨fun place => .same place _, fun place => .same place _⟩

end Alignment

theorem Nested.Lifting.bodies {names : List String} {n : Nested} (h : n.Lifting names) :
    (Alignment.raising names).Bodies n n := by
  have hrecord {m m' : CompileM Record} (hm : Lifts (Record.Raised names) m m') :
      RisesTo (Alignment.raising names).record (liftM m) (liftM m') :=
    (hm.imp fun _ _ => Alignment.record_raising.2).lift.risesTo
  exact
    { fields := hrecord (h.fields (.refl []))
      conditions := h.conditions.lift.risesTo
      mutations := h.mutations.lift.risesTo
      path := fun span _ => hrecord (h.path span)
      branches := (h.branches.imp fun b b' hb =>
        ⟨hb.conditions, hb.consequence, hb.alternative⟩).lift.risesTo
      aliasField := fun name => hrecord ((lifts_aliasField name).imp fun r r' hr => hr ▸ .refl r) }

namespace Condition

variable {names : List String}

theorem rises_compile {s : Statement} (hs : Among names s.positional) {n : Nested}
    (hn : n.Lifting names) : Rises (Json.Raised names false) (compile s n) (compile s n) := by
  have h := (reads_compile (Alignment.states_raising hs) hn.bodies).rises
  rwa [Alignment.relocate_raising] at h

end Condition

namespace Filter

variable {names : List String}

theorem rises_relationshipFields {s : Statement} (hs : Among names s.positional) :
    Rises (Record.Raised names) (relationshipFields s) (relationshipFields s) := by
  have h := (reads_relationshipFields (Alignment.states_raising hs)).rises
  rw [Alignment.relocate_raising] at h
  exact h.imp fun _ _ => Alignment.record_raising.1

theorem rises_compile {s : Statement} (hs : Among names s.positional) {n : Nested}
    (hn : n.Lifting names) : Rises (Json.Raised names false) (compile s n) (compile s n) := by
  have h := (reads_compile (Alignment.states_raising hs) hn.bodies).rises
  rwa [Alignment.relocate_raising] at h

end Filter

/-! ## Path assertions -/

namespace Path

variable {names : List String} {r r' : Record}

theorem rises_step (s : Statement) {n : Nested} (hn : n.Lifting names) :
    Rises (Json.Raised names false) (step s n) (step s n) := by
  unfold step
  rcases leadingAlias (Args.of s) with ⟨name, args⟩
  dsimp only
  refine ((args.marker "via").2.fixed_text _).rises_bind fun ⟨kind, args⟩ _ => ?_
  refine (args.fixed_text _).rises_bind fun ⟨direction, args⟩ _ => ?_
  refine (args.fixed_text _).rises_bind fun ⟨targetKind, args⟩ _ => ?_
  refine (args.fixed_text _).rises_bind fun ⟨targetSubtype, args⟩ _ => ?_
  refine args.text?.2.fixed_finish.rises_bind fun _ _ => ?_
  refine (lifts_aliasField name).lift.bind ?_
  rintro bound _ rfl
  exact (hn.step (.refl _)).lift.bind fun record record' hrecord => rises_pure (.obj hrecord)

theorem rises_stepStatus (s : Statement) (hr : r.Raised names r') :
    Rises (Record.Raised names) (stepStatus s r) (stepStatus s r') := by
  unfold stepStatus
  refine ((Args.of s).fixed_text _).rises_bind fun ⟨status, args⟩ _ => ?_
  exact args.fixed_finish.rises_bind fun _ _ => (lifts_setField _ hr (.same _ _)).lift

theorem lifts_stepPart (c : Child) (hn : c.2.Lifting names) (hr : r.Raised names r') :
    Lifts (Record.Raised names) (stepPart c r) (stepPart c r') := by
  fun_cases stepPart c r with
  | case1 => exact lifts_orElseKeep (rises_stepStatus _ hr) hr
  | case2 labels body span nested =>
    exact hn.filters.bind fun xs ys hxs =>
      lifts_setField "filters" hr (.arr (Json.raisedItems_iff.2 hxs))
  | case3 s nested r hstatus hfilters =>
    rw [stepPart.eq_3 _ _ _ hstatus hfilters]
    exact lifts_unknownKeyword "path step statement" s hr

theorem rises_membership (name : String) {s : Statement} (hs : Among names s.positional) :
    Rises (Json.Raised names false) (membership name s) (membership name s) := by
  unfold membership
  refine ((Args.of s).fixed_value _).rises_bind fun ⟨set, args⟩ hv => ?_
  refine (lifts_reference (Among.of_cons hs hv).1).lift.bind fun x y hxy => ?_
  exact args.fixed_finish.rises_bind fun _ _ =>
    rises_pure (.obj (.cons "type" (.same _ _) (Record.Raised.reference rfl hxy)))

theorem fixed_equality (field : String) (s : Statement) : Fixed (equality field s) fun _ => True := by
  unfold equality
  refine ((Args.of s).fixed_text _).bind fun ⟨value, args⟩ _ => ?_
  exact args.fixed_finish.bind fun _ _ => fixed_pure trivial

theorem rises_relationship (name : String) {s : Statement} (hs : Among names s.positional) :
    Rises (Json.Raised names false) (relationship name s) (relationship name s) :=
  (Filter.rises_relationshipFields hs).bind fun _ _ hfields =>
    rises_pure (.obj (.cons "type" (.same _ _) hfields))

theorem rises_constraint (s : Statement) (hs : Among names s.positional) {n : Nested}
    (hn : n.Lifting names) : Rises (Json.Raised names false) (constraint s n) (constraint s n) := by
  have hequality (field : String) :
    Rises (Json.Raised names false) (equality field s) (equality field s) := by
    refine (fixed_equality field s).rises.imp ?_
    rintro j _ ⟨rfl, -⟩
    exact .same _ _
  fun_cases constraint s n with
  | case1 => exact rises_pure (.same _ _)
  | case2 => exact rises_membership _ hs
  | case3 => exact rises_membership _ hs
  | case4 => exact rises_relationship _ hs
  | case5 => exact rises_relationship _ hs
  | case6 => exact hequality "kind"
  | case7 => exact hequality "subtype"
  | case8 =>
    exact (hn.fields (.refl [])).lift.bind fun fields fields' hfields => rises_pure (.obj hfields)
  | case9 =>
    exact (fixed_unknownKeyword "path constraint" s fun _ => False).rises.imp fun _ _ h => h.2.elim

theorem rises_check (s : Statement) (hr : r.Raised names r') :
    Rises (Record.Raised names) (check s r) (check s r') := by
  unfold check
  refine ((Args.of s).fixed_text _).rises_bind fun ⟨check, args⟩ _ => ?_
  refine rises_unless rfl ?_
  exact args.fixed_finish.rises_bind fun _ _ => (lifts_setField "check" hr (.same _ _)).lift

theorem rises_count (s : Statement) (hr : r.Raised names r') :
    Rises (Record.Raised names) (count s r) (count s r') := by
  unfold count
  split
  · exact (fixed_boundFields _ _).rises_bind fun bounds _ =>
      (lifts_setField "count" hr (.same _ _)).lift
  · exact rises_reject rfl _

theorem lifts_part (c : Child) (hn : c.2.Lifting names) {d d' : Draft} (hd : d.Raised names d') :
    Lifts (Draft.Raised names) (part c d) (part c d') := by
  have hrecord {m m' : CompileM Record} (h : Lifts (Record.Raised names) m m') :
      Lifts (Draft.Raised names) (do return { d with record := ← m })
        (do return { d' with record := ← m' }) :=
    h.bind fun record record' h => lifts_pure ⟨h, hd.steps⟩
  unfold part
  dsimp only
  split
  · exact hrecord (lifts_orElseKeep (rises_check c.1 hd.record) hd.record)
  split
  · refine (rises_step c.1 hn).run.bind fun found found' hfound => lifts_pure ⟨hd.record, ?_⟩
    refine List.rel_append hd.steps ?_
    cases hfound with
    | none => exact .nil
    | some h => exact .cons h .nil
  split
  · exact hrecord (lifts_orElseKeep (rises_count c.1 hd.record) hd.record)
  split
  · refine hn.constraints.bind fun xs ys hxs => ?_
    exact hrecord (lifts_setField "where" hd.record (.arr (Json.raisedItems_iff.2 hxs)))
  · exact lifts_unknownKeyword "graph path statement" c.1 hd

theorem lifts_compile {body : List Child} (h : ∀ c ∈ body, c.2.Lifting names) (block : Span) :
    Lifts (Record.Raised names) (compile body block) (compile body block) := by
  unfold compile
  have hparts : Lifts (Draft.Raised names) (thread part body ⟨[], []⟩) (thread part body ⟨[], []⟩) :=
    lifts_thread (fun c hc d d' hd => lifts_part c (h c hc) hd) (Std.Refl.refl _)
  refine hparts.bind fun d d' hd => ?_
  have hdone : Record.Raised names (d.record ++ [("path", .arr d.steps)])
    (d'.record ++ [("path", .arr d'.steps)]) :=
    hd.record.append (Record.Raised.list (by decide) hd.steps)
  rw [hd.record.has "check"]
  dsimp only
  split
  · exact lifts_report_bind (lifts_pure hdone)
  · exact lifts_pure hdone

end Path

/-! ## Selections and variables -/

namespace Selector

variable {names : List String} {r r' : Record}

theorem rises_pick (s : Statement) (hr : r.Raised names r') :
    Rises (Record.Raised names) (pick s r) (pick s r') := by
  unfold pick
  refine ((Args.of s).fixed_text _).rises_bind fun ⟨strategy, args⟩ _ => ?_
  exact args.fixed_finish.rises_bind fun _ _ => (lifts_setField "pickStrategy" hr (.same _ _)).lift

theorem rises_most (s : Statement) (hr : r.Raised names r') :
    Rises (Record.Raised names) (most s r) (most s r') := by
  unfold most
  refine ((Args.of s).fixed_number _).rises_bind fun ⟨n, args⟩ _ => ?_
  exact args.fixed_finish.rises_bind fun _ _ => (lifts_setField "maxResults" hr (.same _ _)).lift

theorem lifts_single (key field : String) (value : Value) (span : Span) (hr : r.Raised names r') :
    Lifts (Record.Raised names) (single key field value span r) (single key field value span r') := by
  unfold single
  split
  · exact lifts_setField field hr (.same _ _)
  · split
    · exact lifts_setField key hr (.same _ _)
    · exact lifts_report_bind (lifts_pure hr)

theorem lifts_field (key : String) (labels : List Value) (value : Value) (span : Span)
    (hr : r.Raised names r') :
    Lifts (Record.Raised names) (field key labels value span r) (field key labels value span r') := by
  unfold field
  dsimp only
  split
  · exact lifts_orElseKeep (rises_pick _ hr) hr
  split
  · exact lifts_orElseKeep (rises_most _ hr) hr
  split
  · split
    · exact lifts_single key _ value span hr
    · exact lifts_setField _ hr (.same _ _)
  · exact lifts_unknownKeyword "selector statement" _ hr

theorem rises_saturation (s : Statement) (direction : String) (comparator : Comparator) (n : Number)
    (upper : Option Number) (hr : r.Raised names r') :
    Rises (Record.Raised names) (saturation s direction comparator n upper r)
      (saturation s direction comparator n upper r') := by
  unfold saturation
  refine rises_unless rfl ?_
  refine ((Args.of s).fixed_text _).rises_bind fun ⟨kind, args⟩ _ => ?_
  exact args.text?.2.fixed_finish.rises_bind fun _ _ =>
    rises_pure (hr.extend (by decide) (.cons (.same _ _) .nil))

theorem rises_origin {source : Value} (hsource : source.bareNames ⊆ names)
    (via : Option (Value × Value)) (span : Span) :
    Rises (Json.Raised names true) (origin source via span) (origin source via span) := by
  unfold origin
  split
  · split
    · exact rises_pure (.same _ _)
    · exact (lifts_reference hsource).lift
  · split
    · refine (lifts_reference hsource).lift.bind fun x y hxy => rises_pure (.obj ?_)
      exact (Record.Raised.reference (by decide) hxy).append (.refl _)
    · exact rises_reject rfl _

theorem lifts_part (c : Child) (hc : Among names c.1.referable) (hn : c.2.Lifting names)
    (hr : r.Raised names r') : Lifts (Record.Raised names) (part c r) (part c r') := by
  obtain ⟨s, n⟩ := c
  have hunknown := lifts_unknownKeyword "selector statement" s hr
  cases s with
  | field key quoted labels value span =>
    cases quoted with
    | true => exact lifts_setField key hr (.same _ _)
    | false => exact lifts_field key labels value span hr
  | block name quoted labels body span =>
    cases quoted with
    | true => exact (hn.fields (.refl [])).bind fun o o' ho => lifts_setField name hr (.obj ho)
    | false =>
      unfold part
      dsimp only
      split
      · next hfilters =>
        have hname : name = "filters" ∨ name = "preferFilters" := by
          simp only [Bool.and_eq_true, Bool.or_eq_true, decide_eq_true_eq] at hfilters
          exact hfilters.2
        refine hn.filters.bind fun xs ys hxs => lifts_pure (hr.extend ?_ hxs)
        rcases hname with rfl | rfl <;> decide
      · exact hunknown
  | within key items span =>
    cases key with
    | none => exact hunknown
    | some key =>
      unfold part
      dsimp only
      split
      · exact lifts_setField _ hr (.same _ _)
      · exact hunknown
  | predicate word args comparator n upper span =>
    unfold part
    dsimp only
    split
    · exact lifts_orElseKeep (rises_saturation _ word comparator n upper hr) hr
    · exact hunknown
  | origin source via span =>
    refine lifts_orElseKeep ((rises_origin (hc.of_cons rfl).1 via span).bind fun x y hxy => ?_) hr
    exact (lifts_setField "from" hr hxy).lift
  | rel | mutate | bare => exact hunknown

theorem lifts_compile {body : List Child}
    (h : ∀ c ∈ body, Among names c.1.referable ∧ c.2.Lifting names) (hr : r.Raised names r') :
    Lifts (Record.Raised names) (compile body r) (compile body r') :=
  lifts_thread (fun c hc _ _ hr => lifts_part c (h c hc).1 (h c hc).2 hr) hr

theorem lifts_requiredFlag (value : Value) (held : Option Bool) :
    Lifts (· = ·) (requiredFlag value held) (requiredFlag value held) := by
  unfold requiredFlag
  split
  · exact lifts_pure rfl
  · exact lifts_report_bind (lifts_pure rfl)

theorem lifts_bindingPart (c : Child) (hc : Among names c.1.referable) (hn : c.2.Lifting names)
    {b b' : Binding} (hb : b.Raised names b') :
    Lifts (Binding.Raised names) (bindingPart c b) (bindingPart c b') := by
  fun_cases bindingPart c b with
  | case1 body span nested => exact (hn.selection hb.1).bind fun o o' ho => lifts_pure ⟨ho, hb.2⟩
  | case2 value span nested =>
    rw [bindingPart.eq_2, ← hb.2]
    refine (lifts_requiredFlag value b.required).bind ?_
    rintro flag _ rfl
    exact lifts_pure ⟨hb.1, rfl⟩
  | case3 inner span nested => exact lifts_pure ⟨hb.1, rfl⟩
  | case4 c b hselect hrequired hflag =>
    rw [bindingPart.eq_4 _ _ hselect hrequired hflag]
    exact (lifts_part c hc hn hb.1).bind fun o o' ho => lifts_pure ⟨ho, hb.2⟩

theorem lifts_binding {body : List Child}
    (h : ∀ c ∈ body, Among names c.1.referable ∧ c.2.Lifting names) :
    Lifts (Binding.Raised names) (binding body) (binding body) :=
  lifts_thread (fun c hc _ _ hb => lifts_bindingPart c (h c hc).1 (h c hc).2 hb) (Std.Refl.refl _)

theorem lifts_bindingPairs : ∀ (vs : List Value) {b b' : Binding}, b.Raised names b' →
    Lifts (Binding.Raised names) (bindingPairs vs b) (bindingPairs vs b')
  | [], _, _, hb | [_], _, _, hb => lifts_pure hb
  | key :: value :: rest, b, b', hb => by
    simp only [bindingPairs, pure_bind]
    split
    · rw [← hb.2]
      refine (lifts_requiredFlag value b.required).bind ?_
      rintro flag _ rfl
      exact lifts_bindingPairs rest ⟨hb.1, rfl⟩
    · exact (lifts_field _ [] value _ hb.1).bind fun o o' ho => lifts_bindingPairs rest ⟨ho, hb.2⟩

theorem rises_bindingOf (s : Statement) {n : Nested} (hn : n.Lifting names) (name : String)
    (more : List Value) :
    Rises (Binding.Raised names) (bindingOf s n name more) (bindingOf s n name more) := by
  unfold bindingOf
  split
  · cases more with
    | nil => exact hn.binding.lift
    | cons extra more => exact (lifts_report _ _).lift.bind fun _ _ _ => hn.binding.lift
  split
  · exact rises_reject rfl _
  · exact (lifts_bindingPairs more (Std.Refl.refl _)).lift

theorem rises_declaration (s : Statement) {n : Nested} (hn : n.Lifting names) (hr : r.Raised names r') :
    Rises (Record.Raised names) (declaration s n r) (declaration s n r') := by
  unfold declaration
  split
  · split
    · next name hname =>
      refine (rises_bindingOf s hn name _).bind fun b b' hb => ?_
      refine (lifts_declare name).lift.bind ?_
      rintro reference _ rfl
      rw [hb.2]
      exact (lifts_setEntry _ _ hr (.obj (.cons "select" (.obj hb.1) (Record.Raised.refl _)))).lift
    · exact rises_reject rfl _
  · exact rises_reject rfl _

end Selector

/-! ## Mutations -/

namespace Mutation

variable {names : List String}

theorem lifts_branch (c : Child) (hn : c.2.Lifting names) {b b' : Branches} (hb : b.Raised names b') :
    Lifts (Branches.Raised names) (branch c b) (branch c b') := by
  fun_cases branch c b with
  | case1 body span nested =>
    exact hn.conditions.bind fun xs ys hxs => lifts_pure ⟨.some hxs, hb.consequence, hb.alternative⟩
  | case2 body span nested =>
    exact hn.mutations.bind fun xs ys hxs => lifts_pure ⟨hb.conditions, .some hxs, hb.alternative⟩
  | case3 body span nested =>
    exact hn.mutations.bind fun xs ys hxs => lifts_pure ⟨hb.conditions, hb.consequence, .some hxs⟩
  | case4 s nested b hwhen hthen helse =>
    rw [branch.eq_4 _ _ _ hwhen hthen helse]
    exact lifts_unknownKeyword "conditional branch" s hb

theorem lifts_branches {body : List Child} (h : ∀ c ∈ body, c.2.Lifting names) :
    Lifts (Branches.Raised names) (branches body) (branches body) :=
  lifts_thread (fun c hc _ _ hb => lifts_branch c (h c hc) hb) (Std.Refl.refl _)

theorem rises_compile {s : Statement} (hs : Among names s.referable) {n : Nested}
    (hn : n.Lifting names) : Rises (Json.Raised names false) (compile s n) (compile s n) := by
  have hpositional : Among names s.positional := by
    cases s with
    | rel | origin => exact nofun
    | _ => exact hs
  have hrelates : Relates (Alignment.raising names) s := by
    cases s with
    | rel key label kind source target values span =>
      have hrel := Statement.rises_relationship true key label kind span hs
      unfold Relates
      rw [Alignment.relocate_raising]
      exact (hrel.imp fun _ _ => Alignment.record_raising.2).risesTo
    | _ => exact trivial
  have h := (reads_compile (Alignment.states_raising hpositional) hrelates hn.bodies).rises
  rwa [Alignment.relocate_raising] at h

end Mutation

/-! ## Record bodies -/

namespace Body

variable {names : List String} {r r' : Record}

theorem rises_creation {s : Statement} (hs : Among names s.positional) {n : Nested}
    (hn : n.Lifting names) (hr : r.Raised names r') :
    Rises (Record.Raised names) (creation s n r) (creation s n r') := by
  unfold creation
  cases hpos : s.positional with
  | nil => exact rises_pure hr
  | cons first more =>
    have hmore : Among names more := (hs.of_cons hpos).2
    have hdone {m m' : Attempt Record} (h : Rises (Record.Raised names) m m') :
      Rises (Record.Raised names)
        (do let entry ← m; return r.extend "creation" [.obj entry])
        (do let entry ← m'; return r'.extend "creation" [.obj entry]) :=
      h.bind fun o o' ho => rises_pure (hr.extend (by decide) (.cons (.obj ho) .nil))
    refine (fixed_rowText "create" first).rises_bind fun name _ => ?_
    refine (lifts_declare name).lift.bind ?_
    rintro reference _ rfl
    dsimp only
    split
    · cases more with
      | nil => exact hdone (hn.fields (.refl _)).lift
      | cons extra more =>
        exact (lifts_report _ _).lift.bind fun _ _ _ => hdone (hn.fields (.refl _)).lift
    · exact hdone (rises_pairFields hmore s.span (.refl _))

theorem lifts_rejectLabels (name : String) (labels : List Value) :
    Lifts (fun _ _ => True) (rejectLabels name labels) (rejectLabels name labels) := by
  unfold rejectLabels
  split
  · exact lifts_pure trivial
  · exact lifts_report _ _

theorem lifts_objectBlock (name : String) (labels : List Value) {object object' : Record}
    (ho : object.Raised names object') (span : Span) (hr : r.Raised names r') :
    Lifts (Record.Raised names) (objectBlock name labels (.obj object) span r)
      (objectBlock name labels (.obj object') span r') := by
  unfold objectBlock
  split
  · exact lifts_setField name hr (.obj ho)
  · split
    · exact lifts_setEntry name _ hr (.obj ho)
    · exact lifts_report_bind (lifts_pure hr)
  · exact lifts_report_bind (lifts_pure hr)

theorem lifts_listBlock {name : String} (hname : isReferenceKey name = false) (labels : List Value)
    {m : CompileM (List Json)} (hm : Lifts (List.Forall₂ (Json.Raised names false)) m m)
    (hr : r.Raised names r') :
    Lifts (Record.Raised names) (do rejectLabels name labels; return r.extend name (← m))
      (do rejectLabels name labels; return r'.extend name (← m)) :=
  (lifts_rejectLabels name labels).bind fun _ _ _ => hm.bind fun _ _ hxs =>
    lifts_pure (hr.extend hname hxs)

theorem lifts_block {s : Statement} (hs : Among names s.positional) (name : String)
    (labels : List Value) {n : Nested} (hn : n.Lifting names) (hr : r.Raised names r') :
    Lifts (Record.Raised names) (block s name labels n r) (block s name labels n r') := by
  unfold block
  split
  · next h =>
    refine lifts_listBlock ?_ labels hn.conditions hr
    simp only [Bool.or_eq_true, decide_eq_true_eq] at h
    rcases h with rfl | rfl <;> decide
  split
  · next h =>
    refine lifts_listBlock ?_ labels hn.filters hr
    simp only [Bool.or_eq_true, decide_eq_true_eq] at h
    rcases h with rfl | rfl <;> decide
  split
  · next h =>
    refine lifts_listBlock ?_ labels hn.mutations hr
    simp only [Bool.or_eq_true, decide_eq_true_eq] at h
    rcases h with (rfl | rfl) | rfl <;> decide
  split
  · refine (lifts_rejectLabels name labels).bind fun _ _ _ => ?_
    exact (hn.selection (.refl [])).bind fun o o' ho => lifts_setField name hr (.obj ho)
  split
  · exact lifts_orElseKeep (Selector.rises_declaration s hn hr) hr
  split
  · exact lifts_orElseKeep (rises_creation hs hn hr) hr
  · exact (hn.fields (.refl [])).bind fun o o' ho => lifts_objectBlock name labels ho s.span hr

theorem lifts_field {s : Statement} (hs : Among names s.positional) (key : String) (labels : List Value)
    {value : Value} (hvalue : value.bareNames ⊆ names) {n : Nested} (hn : n.Lifting names)
    (hr : r.Raised names r') :
    Lifts (Record.Raised names) (field s key labels value n r) (field s key labels value n r') := by
  unfold field
  split
  · exact lifts_orElseKeep (rises_creation hs hn hr) hr
  split
  · exact lifts_orElseKeep (Selector.rises_declaration s hn hr) hr
  split
  · exact (lifts_fieldValue key hvalue).bind fun v w hvw => lifts_setField key hr hvw
  · exact lifts_setField key hr (.same _ _)

theorem lifts_part (c : Child) (hc : Among names c.1.referable) (hn : c.2.Lifting names)
    (hr : r.Raised names r') : Lifts (Record.Raised names) (part c r) (part c r') := by
  obtain ⟨s, n⟩ := c
  cases s with
  | field key quoted labels value span =>
    cases quoted with
    | true => exact lifts_setField key hr (.same _ _)
    | false =>
      exact lifts_field hc key labels
        (hc value (List.mem_append_right _ (List.mem_singleton_self _))) hn hr
  | block name quoted labels body span =>
    cases quoted with
    | true => exact (hn.fields (.refl [])).bind fun o o' ho => lifts_objectBlock name labels ho span hr
    | false => exact lifts_block hc name labels hn hr
  | rel key label kind source target values span =>
    refine (Statement.rises_relationship false key label kind span hc).run.bind
      fun entry entry' hentry => ?_
    cases hentry with
    | none => exact lifts_pure hr
    | some ho => exact lifts_pure (hr.extend (by decide) (.cons (.obj ho) .nil))
  | mutate target subject change amount span =>
    refine (Mutation.rises_compile hc hn).run.bind fun mutation mutation' hmutation => ?_
    cases hmutation with
    | none => exact lifts_pure hr
    | some h => exact lifts_pure (hr.extend (by decide) (.cons h .nil))
  | predicate | within | origin => exact lifts_report_bind (lifts_pure hr)
  | bare value span =>
    cases value with
    | name name span =>
      unfold part
      dsimp only
      split
      · exact lifts_report_bind (lifts_pure hr)
      · exact lifts_setField name hr (.same _ _)
    | _ => exact lifts_report_bind (lifts_pure hr)

end Body

/-! ## The languages together -/

section
variable {names : List String}

theorem Statement.among_positional {s : Statement} (h : Among names s.referable) :
    Among names s.positional := by
  cases s with
  | rel | origin => exact nofun
  | _ => exact h

theorem Nested.lifting_ofBody {body : List Child}
    (h : ∀ c ∈ body, Among names c.1.referable ∧ c.2.Lifting names) :
    (Nested.ofBody body).Lifting names where
  fields hr := lifts_thread (fun c hc _ _ hr => Body.lifts_part c (h c hc).1 (h c hc).2 hr) hr
  conditions :=
    lifts_collect fun c hc => Condition.rises_compile (Statement.among_positional (h c hc).1) (h c hc).2
  filters := lifts_collect fun c hc =>
    Filter.rises_compile (Statement.among_positional (h c hc).1) (h c hc).2
  mutations := lifts_collect fun c hc => Mutation.rises_compile (h c hc).1 (h c hc).2
  constraints :=
    lifts_collect fun c hc =>
      Path.rises_constraint c.1 (Statement.among_positional (h c hc).1) (h c hc).2
  path span := Path.lifts_compile (fun c hc => (h c hc).2) span
  step hr := lifts_thread (fun c hc _ _ hr => Path.lifts_stepPart c (h c hc).2 hr) hr
  selection hr := Selector.lifts_compile h hr
  binding := Selector.lifts_binding h
  branches := Mutation.lifts_branches fun c hc => (h c hc).2

theorem Statement.among_referable {s : Statement} (h : s.bareNames ⊆ names) :
    Among names s.referable := by
  rw [among_iff]
  cases s with
  | block name quoted labels body span =>
    rw [Statement.bareNames, List.append_subset] at h
    exact h.1
  | _ => exact h

mutual

theorem Statement.lifting_nested : ∀ s : Statement, s.bareNames ⊆ names → s.nested.Lifting names
  | .block name quoted labels body span, h => by
    rw [Statement.bareNames, List.append_subset] at h
    exact Nested.lifting_ofBody (Statement.lifting_children body h.2)
  | .field .., _ | .rel .., _ | .mutate .., _ | .predicate .., _ | .within .., _ | .origin ..,
    _ | .bare .., _ =>
    Nested.lifting_ofBody nofun

theorem Statement.lifting_children : ∀ ss : List Statement, Statement.bareNamesAll ss ⊆ names →
    ∀ c ∈ Statement.children ss, Among names c.1.referable ∧ c.2.Lifting names
  | [], _ => nofun
  | s :: ss, h => by
    rw [Statement.bareNamesAll, List.append_subset] at h
    rw [Statement.children]
    refine List.forall_mem_cons.2 ⟨⟨Statement.among_referable h.1, Statement.lifting_nested s h.1⟩, ?_⟩
    exact Statement.lifting_children ss h.2

end

end

end Worldbook
