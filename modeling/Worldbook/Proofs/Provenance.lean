import Worldbook.Proofs.Bodies
import Worldbook.Proofs.Supplies

/-!
# Where reports and records come from

One lemma for each kind of statement says that it draws on the supply that its own
spans, values and amounts are from. The readings of a nested body are taken to draw
on it too; the last section ties the languages together by recursion over statements.
-/

namespace Worldbook

open CompileM Args

structure Branches.From (S : Supply) (b : Branches) : Prop where
  conditions : ∀ xs, b.conditions = some xs → ∀ x ∈ xs, S.json x
  consequence : ∀ xs, b.consequence = some xs → ∀ x ∈ xs, S.json x
  alternative : ∀ xs, b.alternative = some xs → ∀ x ∈ xs, S.json x

structure Nested.DrawsOn (S : Supply) (n : Nested) : Prop where
  fields : ∀ r, S.Makes r → Draws S S.Makes (n.fields r)
  conditions : Draws S (fun xs => ∀ x ∈ xs, S.json x) n.conditions
  filters : Draws S (fun xs => ∀ x ∈ xs, S.json x) n.filters
  mutations : Draws S (fun xs => ∀ x ∈ xs, S.json x) n.mutations
  constraints : Draws S (fun xs => ∀ x ∈ xs, S.json x) n.constraints
  path : ∀ span, S.span span → Draws S S.Makes (n.path span)
  step : ∀ r, S.Makes r → Draws S S.Makes (n.step r)
  selection : ∀ r, S.Makes r → Draws S S.Makes (n.selection r)
  binding : Draws S (fun b => S.Makes b.select) n.binding
  branches : Draws S (Branches.From S) n.branches

variable {S : Supply}

/-! ## Keywords -/

theorem DrawsOr.imp {α : Type} {P Q : α → Prop} {m : Attempt α} (h : DrawsOr S P m)
    (hPQ : ∀ a, P a → Q a) : DrawsOr S Q m := fun c => ⟨fun a ha => hPQ a ((h c).1 a ha), (h c).2⟩

theorem forall_of_forall₂ {α β : Type} {P : α → Prop} {xs : List α} {ys : List β}
    (h : List.Forall₂ (fun x _ => P x) xs ys) : ∀ x ∈ xs, P x := by
  induction h with
  | nil => exact nofun
  | cons hx _ ih => exact List.forall_mem_cons.2 ⟨hx, ih⟩

/-- A statement whose values are from a supply. Of the second side nothing is asked. -/
def Supply.alignment (S : Supply) : Alignment where
  move := id
  span := S.span
  value := S.Offers
  json _ x _ := S.json x
  Reads R m _ := DrawsOr S (fun a => ∃ b, R a b) m
  span_value := Supply.Offers.span
  literal _ h := h.literal
  items := Supply.Offers.items
  str _ text := S.str text
  arr h := (S.arr _).2 (forall_of_forall₂ h)
  obj h := Supply.json_obj.2 (forall_of_forall₂ (h.imp fun _ _ h => h.2))
  pure h := drawsOr_pure ⟨_, h⟩
  bind hm hk := hm.bind fun a ⟨b, hab⟩ => hk a b hab
  reject _ hp hs := drawsOr_reject hp hs
  reference h := (draws_reference h).lift.imp fun x hx => ⟨x, hx⟩
  required h := (drawsOr_requiredReference h).imp fun x hx => ⟨x, fun _ => hx⟩

namespace Supply

theorem exists_record {r : Record} : (∃ r', S.alignment.record r r') ↔ S.Makes r := by
  constructor
  · rintro ⟨r', h⟩
    exact json_obj.1 (@Alignment.obj S.alignment false r r' h)
  · exact fun h => ⟨r, List.forall₂_same.2 fun m hm => ⟨rfl, h m hm⟩⟩

theorem States.aligned {s : Statement} (h : S.States s) : S.alignment.States s where
  span := h.span
  spans v hv := (h.values v hv).span
  values := (feeds_of h).2
  amounts n hn := ⟨fun _ => (h.amounts n hn).1, fun _ => (h.amounts n hn).2⟩

end Supply

theorem Nested.DrawsOn.bodies {n : Nested} (h : n.DrawsOn S) (n' : Nested) :
    S.alignment.Bodies n n' := by
  have hrecord {m : CompileM Record} (hm : Draws S S.Makes m) :
      DrawsOr S (fun r => ∃ r', S.alignment.record r r') (liftM m) :=
        hm.lift.imp fun _ => Supply.exists_record.2
  have hlist {xs : List Json} (hxs : ∀ x ∈ xs, S.json x) :
    List.Forall₂ (S.alignment.json false) xs xs :=
    List.forall₂_same.2 hxs
  have hbranch {list : Option (List Json)} (h : ∀ xs, list = some xs → ∀ x ∈ xs, S.json x) :
      Option.Rel (List.Forall₂ (S.alignment.json false)) list list := by
    cases list with
    | none => exact .none
    | some xs => exact .some (hlist (h xs rfl))
  exact
    { fields := hrecord (h.fields [] Supply.makes_nil)
      conditions := h.conditions.lift.imp fun xs hxs => ⟨xs, hlist hxs⟩
      mutations := h.mutations.lift.imp fun xs hxs => ⟨xs, hlist hxs⟩
      path := fun span hspan => hrecord (h.path span hspan)
      branches := h.branches.lift.imp fun b hb =>
        ⟨b, hbranch hb.conditions, hbranch hb.consequence, hbranch hb.alternative⟩
      aliasField := fun name => hrecord (draws_aliasField name) }

section
variable {s : Statement} {n : Nested}

theorem Condition.drawsOr_compile (hs : S.States s) (hn : n.DrawsOn S) :
    DrawsOr S S.json (compile s n) :=
  (reads_compile hs.aligned (hn.bodies n)).imp fun _ ⟨_, hx⟩ => hx

theorem Filter.drawsOr_relationshipFields (hs : S.States s) :
    DrawsOr S S.Makes (relationshipFields s) :=
  (reads_relationshipFields hs.aligned).imp fun _ => Supply.exists_record.1

theorem Filter.drawsOr_compile (hs : S.States s) (hn : n.DrawsOn S) : DrawsOr S S.json (compile s n) :=
  (reads_compile hs.aligned (hn.bodies n)).imp fun _ ⟨_, hx⟩ => hx

theorem Mutation.drawsOr_compile (hs : S.States s) (hn : n.DrawsOn S) :
    DrawsOr S S.json (compile s n) := by
  have hrelates : Relates S.alignment s := by
    cases s with
    | rel => exact (drawsOr_relationship true hs).imp fun _ => Supply.exists_record.2
    | _ => exact trivial
  exact (reads_compile hs.aligned hrelates (hn.bodies n)).imp fun _ ⟨_, hx⟩ => hx

end

namespace Mutation

theorem draws_branch {c : Child} (hs : S.States c.1) (hn : c.2.DrawsOn S) {b : Branches}
    (hb : b.From S) : Draws S (Branches.From S) (branch c b) := by
  have hsome : ∀ {xs : List Json}, (∀ x ∈ xs, S.json x) → ∀ ys, some xs = some ys →
    ∀ x ∈ ys, S.json x := by
    intro xs hxs ys hys
    cases hys
    exact hxs
  unfold branch
  split
  · exact hn.conditions.bind fun xs hxs => draws_pure ⟨hsome hxs, hb.consequence, hb.alternative⟩
  · exact hn.mutations.bind fun xs hxs => draws_pure ⟨hb.conditions, hsome hxs, hb.alternative⟩
  · exact hn.mutations.bind fun xs hxs => draws_pure ⟨hb.conditions, hb.consequence, hsome hxs⟩
  · exact (draws_unknownKeyword _ hs).bind fun _ _ => draws_pure hb

end Mutation

/-! ## Paths -/

namespace Path

theorem feeds_leadingAlias {a : Args} (h : S.Feeds a) : S.Feeds (leadingAlias a).2 := by
  unfold leadingAlias
  split
  · next token s rest hrest =>
    split
    · exact ⟨h.1, fun v hv => h.2 v (by simp [hrest, hv])⟩
    · exact h
  · exact h

theorem drawsOr_step {s : Statement} (hs : S.States s) {n : Nested} (hn : n.DrawsOn S) :
    DrawsOr S S.json (step s n) := by
  have ha := feeds_marker (feeds_leadingAlias (feeds_of hs)) "via"
  unfold step
  generalize (leadingAlias (Args.of s)).1 = name
  refine (drawsOr_text ha _).bind ?_
  intro (kind, a) ha
  refine (drawsOr_text ha _).bind ?_
  intro (direction, a) ha
  refine (drawsOr_text ha _).bind ?_
  intro (targetKind, a) ha
  refine (drawsOr_text ha _).bind ?_
  intro (targetSubtype, a) ha
  refine (drawsOr_finish (feeds_text? ha)).bind ?_
  intro _ _
  refine (draws_aliasField _).lift.bind ?_
  intro bound hbound
  refine (hn.step _ (by simp [hbound])).lift.bind ?_
  intro record hrecord
  exact drawsOr_pure (Supply.json_obj.2 hrecord)

variable {r : Record}

theorem drawsOr_stepStatus {s : Statement} (hs : S.States s) (hr : S.Makes r) :
    DrawsOr S S.Makes (stepStatus s r) := by
  refine (drawsOr_text (feeds_of hs) _).bind ?_
  intro (status, a) ha
  refine (drawsOr_finish ha).bind ?_
  intro _ _
  exact (draws_setField "targetStatus" (S.str _) hs.span hr).lift

theorem draws_stepPart {c : Child} (hs : S.States c.1) (hn : c.2.DrawsOn S) (hr : S.Makes r) :
    Draws S S.Makes (stepPart c r) := by
  unfold stepPart
  split
  · exact draws_orElseKeep (drawsOr_stepStatus hs hr) hr
  · refine hn.filters.bind ?_
    intro xs hxs
    exact draws_setField "filters" ((S.arr _).2 hxs) hs.span hr
  · exact (draws_unknownKeyword _ hs).bind fun _ _ => draws_pure hr

theorem json_typed (name : String) {fields : Record} (h : S.Makes fields) :
    S.json (typed name fields) := by
  simpa [typed] using h

theorem drawsOr_membership (name : String) {s : Statement} (hs : S.States s) :
    DrawsOr S S.json (membership name s) := by
  refine (drawsOr_value (feeds_of hs) _).bind ?_
  intro (set, a) ⟨hset, ha⟩
  refine (draws_reference hset).lift.bind ?_
  intro x hx
  exact (drawsOr_finish ha).bind fun _ _ => drawsOr_pure (json_typed name (by simp [hx]))

theorem drawsOr_equality (field : String) {s : Statement} (hs : S.States s) :
    DrawsOr S S.json (equality field s) := by
  refine (drawsOr_text (feeds_of hs) _).bind ?_
  intro (value, a) ha
  exact (drawsOr_finish ha).bind fun _ _ => drawsOr_pure (json_typed _ (by simp))

theorem drawsOr_relationship (name : String) {s : Statement} (hs : S.States s) :
    DrawsOr S S.json (relationship name s) :=
  (Filter.drawsOr_relationshipFields hs).bind fun _ h => drawsOr_pure (json_typed name h)

theorem drawsOr_constraint {s : Statement} (hs : S.States s) {n : Nested} (hn : n.DrawsOn S) :
    DrawsOr S S.json (constraint s n) := by
  unfold constraint
  split
  · exact drawsOr_pure (json_typed _ Supply.makes_nil)
  · exact drawsOr_membership _ hs
  · exact drawsOr_membership _ hs
  · exact drawsOr_relationship _ hs
  · exact drawsOr_relationship _ hs
  · exact drawsOr_equality _ hs
  · exact drawsOr_equality _ hs
  · exact (hn.fields [] Supply.makes_nil).lift.bind fun fields h => drawsOr_pure (Supply.json_obj.2 h)
  · exact drawsOr_unknownKeyword _ hs

theorem drawsOr_check {s : Statement} (hs : S.States s) (hr : S.Makes r) :
    DrawsOr S S.Makes (check s r) := by
  refine (drawsOr_text (feeds_of hs) _).bind ?_
  intro (check, a) ha
  refine drawsOr_unless (by simp) hs.span ?_
  refine (drawsOr_finish ha).bind ?_
  intro _ _
  exact (draws_setField "check" (S.str _) hs.span hr).lift

theorem drawsOr_count {s : Statement} (hs : S.States s) (hr : S.Makes r) :
    DrawsOr S S.Makes (count s r) := by
  unfold count
  split
  · next comparison hc =>
    refine (drawsOr_boundFields hs.span (comparison?_counts hs hc)).bind ?_
    intro bounds hbounds
    exact (draws_setField "count" (Supply.json_obj.2 hbounds) hs.span hr).lift
  · exact drawsOr_reject (by simp) hs.span

def Draft.From (S : Supply) (d : Draft) : Prop := S.Makes d.record ∧ ∀ x ∈ d.steps, S.json x

theorem draws_part {c : Child} (hs : S.States c.1) (hn : c.2.DrawsOn S) {d : Draft} (hd : d.From S) :
    Draws S (Draft.From S) (part c d) := by
  obtain ⟨s, n⟩ := c
  have hkeep : ∀ {attempt : Attempt Record}, DrawsOr S S.Makes attempt →
      Draws S (Draft.From S) (do return { d with record := ← orElseKeep attempt d.record }) := by
    intro attempt hattempt
    exact (draws_orElseKeep hattempt hd.1).bind fun r hr => draws_pure ⟨hr, hd.2⟩
  unfold part
  dsimp only
  split
  · exact hkeep (drawsOr_check hs hd.1)
  split
  · refine Draws.bind (drawsOr_step hs hn) ?_
    intro found hfound
    refine draws_pure ⟨hd.1, List.forall_mem_append.2 ⟨hd.2, ?_⟩⟩
    intro x hx
    exact hfound x (Option.mem_toList.1 hx)
  split
  · exact hkeep (drawsOr_count hs hd.1)
  split
  · refine hn.constraints.bind ?_
    intro xs hxs
    refine (draws_setField "where" ((S.arr _).2 hxs) hs.span hd.1).bind ?_
    intro r hr
    exact draws_pure ⟨hr, hd.2⟩
  · exact (draws_unknownKeyword _ hs).bind fun _ _ => draws_pure hd

end Path

/-! ## Selections and variables -/

namespace Selector

variable {r : Record}

theorem drawsOr_pick {s : Statement} (hs : S.States s) (hr : S.Makes r) :
    DrawsOr S S.Makes (pick s r) := by
  refine (drawsOr_text (feeds_of hs) _).bind ?_
  intro (strategy, a) ha
  refine (drawsOr_finish ha).bind ?_
  intro _ _
  exact (draws_setField "pickStrategy" (S.str _) hs.span hr).lift

theorem drawsOr_most {s : Statement} (hs : S.States s) (hr : S.Makes r) :
    DrawsOr S S.Makes (most s r) := by
  refine (drawsOr_number (feeds_of hs) _).bind ?_
  intro (m, a) ⟨hm, ha⟩
  refine (drawsOr_finish ha).bind ?_
  intro _ _
  exact (draws_setField "maxResults" hm hs.span hr).lift

theorem draws_single (key field : String) {value : Value} (hv : S.Offers value) {span : Span}
    (hspan : S.span span) (hr : S.Makes r) : Draws S S.Makes (single key field value span r) := by
  unfold single
  split
  · exact draws_setField field hv.literal hspan hr
  · split
    · exact draws_setField key (S.str _) hspan hr
    · exact draws_report_bind (by simp) hv.span (draws_pure hr)

theorem draws_field (key : String) {labels : List Value} {value : Value} {span : Span}
    (hs : S.States (.field key false labels value span)) (hr : S.Makes r) :
    Draws S S.Makes (field key labels value span r) := by
  unfold field
  dsimp only
  split
  · exact draws_orElseKeep (drawsOr_pick hs hr) hr
  split
  · exact draws_orElseKeep (drawsOr_most hs hr) hr
  split
  · next plural _ =>
    split
    · exact draws_single key plural (hs.values value (by simp [Statement.values])) hs.span hr
    · exact draws_setField plural ((S.arr _).2 (Supply.json_literals (offers_flat (feeds_of hs))))
        hs.span hr
  · exact (draws_unknownKeyword _ hs).bind fun _ _ => draws_pure hr

theorem drawsOr_saturation {s : Statement} (hs : S.States s) (direction : String)
    (comparator : Comparator) {n : Number} (hcount : S.Counts n) (upper : Option Number)
    (hr : S.Makes r) : DrawsOr S S.Makes (saturation s direction comparator n upper r) := by
  refine drawsOr_unless (by simp) hs.span ?_
  refine (drawsOr_text (feeds_of hs) _).bind ?_
  intro (kind, a) ha
  refine (drawsOr_finish (feeds_text? ha)).bind ?_
  intro _ _
  refine drawsOr_pure (hr.extend _ ?_)
  intro x hx
  rw [List.mem_singleton.1 hx]
  simp [hcount.1]

theorem drawsOr_origin {source : Value} {via : Option (Value × Value)} {span : Span}
    (hs : S.States (.origin source via span)) : DrawsOr S S.json (origin source via span) := by
  have hsource : S.Offers source := hs.values source (by simp [Statement.values])
  unfold origin
  split
  · split
    · exact drawsOr_pure (S.str _)
    · exact (draws_reference hsource).lift
  · split
    · refine (draws_reference hsource).lift.bind ?_
      intro x hx
      exact drawsOr_pure (by simp [hx])
    · exact drawsOr_reject (by simp) hs.span

theorem draws_part {c : Child} (hs : S.States c.1) (hn : c.2.DrawsOn S) (hr : S.Makes r) :
    Draws S S.Makes (part c r) := by
  obtain ⟨s, n⟩ := c
  have hunknown : Draws S S.Makes (do unknownKeyword "selector statement" s; return r) :=
    (draws_unknownKeyword _ hs).bind fun _ _ => draws_pure hr
  cases s with
  | field key quoted labels value span =>
    cases quoted with
    | true => exact draws_setField key (Supply.json_fieldLiteral hs.values) hs.span hr
    | false => exact draws_field key hs hr
  | block name quoted labels body span =>
    cases quoted with
    | true =>
      refine (hn.fields [] Supply.makes_nil).bind ?_
      intro fields hfields
      exact draws_setField name (Supply.json_obj.2 hfields) hs.span hr
    | false =>
      simp only [part]
      split
      · exact hn.filters.bind fun xs hxs => draws_pure (hr.extend name hxs)
      · exact hunknown
  | within key items span =>
    cases key with
    | none => exact hunknown
    | some key =>
      simp only [part]
      split
      · next plural _ =>
          exact draws_setField plural ((S.arr _).2 (Supply.json_literals hs.values)) hs.span hr
      · exact hunknown
  | predicate direction args comparator m upper span =>
    simp only [part]
    split
    · exact draws_orElseKeep
        (drawsOr_saturation hs direction comparator (hs.amounts m List.mem_cons_self) upper hr) hr
    · exact hunknown
  | origin source via span =>
    refine draws_orElseKeep ((drawsOr_origin hs).bind ?_) hr
    intro x hx
    exact (draws_setField "from" hx hs.span hr).lift
  | rel | mutate | bare => exact hunknown

theorem draws_requiredFlag {value : Value} (hv : S.Offers value) (held : Option Bool) :
    Draws S (fun _ => True) (requiredFlag value held) := by
  unfold requiredFlag
  split
  · exact draws_pure trivial
  · exact draws_report_bind (by simp) hv.span (draws_pure trivial)

variable {b : Binding}

theorem draws_bindingPart {c : Child} (hs : S.States c.1) (hn : c.2.DrawsOn S) (hb : S.Makes b.select) :
    Draws S (fun b => S.Makes b.select) (bindingPart c b) := by
  unfold bindingPart
  split
  · exact (hn.selection b.select hb).bind fun r hr => draws_pure hr
  · next value _ _ =>
    refine (draws_requiredFlag (hs.values value (by simp [Statement.values])) b.required).bind ?_
    intro flag _
    exact draws_pure hb
  · exact draws_pure hb
  · exact (draws_part hs hn hb).bind fun r hr => draws_pure hr

/-- The field of a pair has the join of the spans of its key and its value. -/
theorem states_pair (word : String) {key value : Value} (hkey : S.Offers key)
    (hvalue : S.Offers value) : S.States (.field word false [] value (key.span.join value.span)) := by
  refine ⟨S.join hkey.span hvalue.span, ?_, ?_⟩
  · intro v hv
    rw [List.mem_singleton.1 hv]
    exact hvalue
  · intro m hm
    cases hm

theorem draws_bindingPairs : ∀ {vs : List Value} {b : Binding},
    (∀ v ∈ vs, S.Offers v) → S.Makes b.select →
    Draws S (fun b => S.Makes b.select) (bindingPairs vs b)
  | [], _, _, hb | [_], _, _, hb => draws_pure hb
  | key :: value :: rest, b, h, hb => by
    have hkey := h key (by simp)
    have hvalue := h value (by simp)
    have hrest : ∀ v ∈ rest, S.Offers v := fun v hv => h v (by simp [hv])
    simp only [bindingPairs, pure_bind]
    split
    · refine (draws_requiredFlag hvalue b.required).bind ?_
      intro flag _
      exact draws_bindingPairs hrest hb
    · refine (draws_field _ (states_pair _ hkey hvalue) hb).bind ?_
      intro r hr
      exact draws_bindingPairs hrest hr

theorem drawsOr_bindingOf {s : Statement} (hs : S.States s) {n : Nested} (hn : n.DrawsOn S)
    (name : String) {more : List Value} (h : ∀ v ∈ more, S.Offers v) :
    DrawsOr S (fun b => S.Makes b.select) (bindingOf s n name more) := by
  unfold bindingOf
  split
  · split
    · next extra rest =>
      refine (draws_report (p := .variableLabels) (by simp) (h extra List.mem_cons_self).span).lift.bind
        ?_
      intro _ _
      exact hn.binding.lift
    · exact hn.binding.lift
  split
  · exact drawsOr_reject (by simp) hs.span
  · exact (draws_bindingPairs h Supply.makes_nil).lift

theorem positional_offers {s : Statement} (hs : S.States s) : ∀ v ∈ s.positional, S.Offers v :=
  (feeds_of hs).2

theorem drawsOr_declaration {s : Statement} (hs : S.States s) {n : Nested} (hn : n.DrawsOn S)
    (hr : S.Makes r) : DrawsOr S S.Makes (declaration s n r) := by
  have hvalues := positional_offers hs
  unfold declaration
  split
  · next first more hpositional =>
    split
    · next name _ =>
      refine (drawsOr_bindingOf hs hn name fun v hv => hvalues v (by simp [hpositional, hv])).bind ?_
      intro b hb
      refine (draws_declare name).lift.bind ?_
      intro reference _
      have hentry :
        S.Makes (("select", .obj b.select) ::
          (b.required.map fun f => ("required", Json.bool f)).toList) := by
        cases b.required <;> simp [hb, S.bool]
      have htwice : Problem.duplicateVariable reference ≠ .numberOutOfRange := by simp
      exact (draws_setEntry "variables" reference htwice (Supply.json_obj.2 hentry) hs.span hr).lift
    · exact drawsOr_reject (by simp) hs.span
  · exact drawsOr_reject (by simp) hs.span

end Selector

/-! ## Record bodies -/

namespace Body

variable {r : Record}

theorem drawsOr_creation {s : Statement} (hs : S.States s) {n : Nested} (hn : n.DrawsOn S)
    (hr : S.Makes r) : DrawsOr S S.Makes (creation s n r) := by
  have hvalues := Selector.positional_offers hs
  unfold creation
  split
  · exact drawsOr_pure hr
  · next first more hpositional =>
    rw [hpositional] at hvalues
    have hmore : ∀ v ∈ more, S.Offers v := fun v hv => hvalues v (List.mem_cons_of_mem _ hv)
    refine (drawsOr_rowText "create" (hvalues first List.mem_cons_self)).bind ?_
    intro name _
    refine (draws_declare name).lift.bind ?_
    intro reference _
    have hentry : S.Makes [textField "entityRef" reference] := by simp
    have hextend : ∀ entry, S.Makes entry →
      DrawsOr S S.Makes (pure (r.extend "creation" [.obj entry])) := by
      intro entry hentry
      exact drawsOr_pure (hr.extend "creation" (by simpa using hentry))
    dsimp only
    split
    · split
      · next extra rest =>
        have hreport :=
          draws_report (p := .creationLabels) (by simp) (hmore extra List.mem_cons_self).span
        refine hreport.lift.bind ?_
        intro _ _
        exact (hn.fields _ hentry).lift.bind hextend
      · exact (hn.fields _ hentry).lift.bind hextend
    · exact (drawsOr_pairFields hmore hs.span hentry).bind hextend

theorem draws_rejectLabels (name : String) {labels : List Value} (h : ∀ v ∈ labels, S.Offers v) :
    Draws S (fun _ => True) (rejectLabels name labels) := by
  cases labels with
  | nil => exact draws_pure trivial
  | cons first rest => exact draws_report (by simp) (h first List.mem_cons_self).span

theorem draws_objectBlock (name : String) {labels : List Value} (h : ∀ v ∈ labels, S.Offers v)
    {object : Json} (hobject : S.json object) {span : Span} (hspan : S.span span) (hr : S.Makes r) :
    Draws S S.Makes (objectBlock name labels object span r) := by
  rcases labels with _ | ⟨label, _ | ⟨extra, rest⟩⟩
  · exact draws_setField name hobject hspan hr
  · simp only [objectBlock]
    split
    · exact draws_setEntry name _ (by simp) hobject hspan hr
    · exact draws_report_bind (by simp) (h label List.mem_cons_self).span (draws_pure hr)
  · exact draws_report_bind (by simp) (h extra (by simp)).span (draws_pure hr)

theorem draws_block {s : Statement} (hs : S.States s) (name : String) {labels : List Value}
    (h : ∀ v ∈ labels, S.Offers v) {n : Nested} (hn : n.DrawsOn S) (hr : S.Makes r) :
    Draws S S.Makes (block s name labels n r) := by
  -- a list of a language of its own, behind labels that it takes none of
  have hlist : ∀ {list : CompileM (List Json)}, Draws S (fun xs => ∀ x ∈ xs, S.json x) list →
      Draws S S.Makes (do rejectLabels name labels; return r.extend name (← list)) := by
    intro list hlist
    refine (draws_rejectLabels name h).bind ?_
    intro _ _
    exact hlist.bind fun xs hxs => draws_pure (hr.extend name hxs)
  unfold block
  split
  · exact hlist hn.conditions
  split
  · exact hlist hn.filters
  split
  · exact hlist hn.mutations
  split
  · refine (draws_rejectLabels name h).bind ?_
    intro _ _
    refine (hn.selection [] Supply.makes_nil).bind ?_
    intro fields hfields
    exact draws_setField name (Supply.json_obj.2 hfields) hs.span hr
  split
  · exact draws_orElseKeep (Selector.drawsOr_declaration hs hn hr) hr
  split
  · exact draws_orElseKeep (drawsOr_creation hs hn hr) hr
  · refine (hn.fields [] Supply.makes_nil).bind ?_
    intro fields hfields
    exact draws_objectBlock name h (Supply.json_obj.2 hfields) hs.span hr

theorem draws_field {s : Statement} (hs : S.States s) (key : String) {labels : List Value}
    {value : Value} (h : ∀ v ∈ labels ++ [value], S.Offers v) {n : Nested} (hn : n.DrawsOn S)
    (hr : S.Makes r) : Draws S S.Makes (field s key labels value n r) := by
  unfold field
  split
  · exact draws_orElseKeep (drawsOr_creation hs hn hr) hr
  split
  · exact draws_orElseKeep (Selector.drawsOr_declaration hs hn hr) hr
  split
  · refine (draws_fieldValue key (h value (by simp))).bind ?_
    intro x hx
    exact draws_setField key hx hs.span hr
  · exact draws_setField key (Supply.json_fieldLiteral h) hs.span hr

theorem draws_part {c : Child} (hs : S.States c.1) (hn : c.2.DrawsOn S) (hr : S.Makes r) :
    Draws S S.Makes (part c r) := by
  obtain ⟨s, n⟩ := c
  have hunexpected : Draws S S.Makes (do report (.unexpectedInBody s.describe) s.span; return r) :=
    draws_report_bind (by simp) hs.span (draws_pure hr)
  cases s with
  | field key quoted labels value span =>
    cases quoted with
    | true => exact draws_setField key (Supply.json_fieldLiteral hs.values) hs.span hr
    | false => exact draws_field hs key hs.values hn hr
  | block name quoted labels body span =>
    cases quoted with
    | true =>
      refine (hn.fields [] Supply.makes_nil).bind ?_
      intro fields hfields
      exact draws_objectBlock name hs.values (Supply.json_obj.2 hfields) hs.span hr
    | false => exact draws_block hs name hs.values hn hr
  | rel key label kind source target values span =>
    refine Draws.bind (drawsOr_relationship false hs) ?_
    intro found hfound
    cases found with
    | none => exact draws_pure hr
    | some entry => exact draws_pure (hr.extend "relationships" (by simpa using hfound entry rfl))
  | mutate target id change amount span =>
    refine Draws.bind (Mutation.drawsOr_compile hs hn) ?_
    intro found hfound
    cases found with
    | none => exact draws_pure hr
    | some mutation => exact draws_pure (hr.extend "stateUpdates" (by simpa using hfound mutation rfl))
  | predicate word args comparator m upper span =>
    exact draws_report_bind (by simp) hs.span (draws_pure hr)
  | bare value span =>
    cases value with
    | name name s =>
      simp only [part]
      split
      · exact draws_report_bind (by simp) hs.span (draws_pure hr)
      · exact draws_setField name (S.bool true) hs.span hr
    | _ => exact hunexpected
  | within | origin => exact hunexpected

end Body

/-! ## Bodies -/

theorem Nested.drawsOn_ofBody {body : List Child} (h : ∀ c ∈ body, S.States c.1 ∧ c.2.DrawsOn S) :
    (Nested.ofBody body).DrawsOn S where
  fields _ hr := draws_thread (fun c hc _ hr => Body.draws_part (h c hc).1 (h c hc).2 hr) hr
  conditions := draws_collect fun c hc => Condition.drawsOr_compile (h c hc).1 (h c hc).2
  filters := draws_collect fun c hc => Filter.drawsOr_compile (h c hc).1 (h c hc).2
  mutations := draws_collect fun c hc => Mutation.drawsOr_compile (h c hc).1 (h c hc).2
  constraints := draws_collect fun c hc => Path.drawsOr_constraint (h c hc).1 (h c hc).2
  path span hspan := by
    have hdraft : Path.Draft.From S ⟨[], []⟩ := ⟨Supply.makes_nil, nofun⟩
    refine (draws_thread (fun c hc _ hd => Path.draws_part (h c hc).1 (h c hc).2 hd) hdraft).bind ?_
    intro d hd
    have hrecord : S.Makes (d.record ++ [("path", .arr d.steps)]) := by simpa [hd.1] using hd.2
    split
    · exact draws_report_bind (by simp) hspan (draws_pure hrecord)
    · exact draws_pure hrecord
  step _ hr := draws_thread (fun c hc _ hr => Path.draws_stepPart (h c hc).1 (h c hc).2 hr) hr
  selection _ hr := draws_thread (fun c hc _ hr => Selector.draws_part (h c hc).1 (h c hc).2 hr) hr
  binding := draws_thread (I := fun b : Binding => S.Makes b.select)
    (fun c hc _ hb => Selector.draws_bindingPart (h c hc).1 (h c hc).2 hb) Supply.makes_nil
  branches := draws_thread (fun c hc _ hb => Mutation.draws_branch (h c hc).1 (h c hc).2 hb) ⟨nofun,
    nofun, nofun⟩

mutual

theorem Statement.drawsOn_nested : ∀ s : Statement, (∀ t ∈ s.tree, S.States t) → s.nested.DrawsOn S
  | .block _ _ _ body _, h => by
    rw [Statement.nested_block]
    exact Nested.drawsOn_ofBody
      (Statement.drawsOn_children body fun t ht => h t (List.mem_cons_of_mem _ ht))
  | .field .., _ | .rel .., _ | .mutate .., _ | .predicate .., _ | .within .., _ | .origin ..,
    _ | .bare .., _ =>
    Nested.drawsOn_ofBody nofun

theorem Statement.drawsOn_children : ∀ ss : List Statement, (∀ t ∈ Statement.treeAll ss, S.States t) →
    ∀ c ∈ Statement.children ss, S.States c.1 ∧ c.2.DrawsOn S
  | [], _ => by simp
  | s :: rest, h => by
    rw [Statement.children_cons]
    have hs : ∀ t ∈ s.tree, S.States t := fun t ht => h t (List.mem_append_left _ ht)
    refine List.forall_mem_cons.2 ⟨⟨hs s s.mem_tree_self, Statement.drawsOn_nested s hs⟩, ?_⟩
    exact Statement.drawsOn_children rest fun t ht => h t (List.mem_append_right _ ht)

end

end Worldbook
