import Worldbook.Proofs.Labels
import Worldbook.Proofs.Skipping

/-!
# Where an entity has to be named

The entities that a condition asks for, that a filter leaves out and that a mutation acts on have to
be bound. `GivesFrom` follows an attempt from the bindings it starts with, and with it each argument
that names an entity is found again in the record, as the reference it resolves to.
-/

namespace Worldbook

open CompileM

/-! ## References -/

namespace Scope

/-- What a value becomes where it has to name an entity. A quoted text stays
as it is. A bare name starts with `$` afterwards, and unless it was written
so, the part before its first point is bound. -/
def Refers (s : Scope) : Value → Json → Prop
  | .name token _, j =>
    ∃ found, j = .str found ∧ hasSigil found = true ∧ (hasSigil token = true → found = token) ∧
      (hasSigil token = false → found = "$" ++ token ∧ s.isBound (stem token) = true)
  | .str text _, j => j = .str text
  | _, _ => False

theorem hasSigil_referenceTo (base : String) : hasSigil (referenceTo base) = true := by
  simp [hasSigil, referenceTo]

theorem refers_of_require? {s : Scope} {token found : String} (h : s.require? token = some found)
    (span : Span) : s.Refers (.name token span) (.str found) := by
  unfold require? at h
  refine ⟨found, rfl, ?_⟩
  split at h
  · next hsigil =>
    cases h
    refine ⟨hsigil, fun _ => rfl, ?_⟩
    intro hbare
    rw [hsigil] at hbare
    cases hbare
  · next hbare =>
    split at h
    · next hbound =>
      cases h
      exact ⟨hasSigil_referenceTo token, fun hsigil => absurd hsigil hbare, fun _ => ⟨rfl, hbound⟩⟩
    · cases h

end Scope

/-! ## What an attempt gives -/

/-- Whatever the attempt gives from the bindings `s` has the property, with
the bindings that are left. -/
def GivesFrom {α : Type} (s : Scope) (m : Attempt α) (Q : α → Scope → Prop) : Prop :=
  ∀ c, c.scope = s → ∀ a, (m.run.run c).1 = some a → Q a (m.run.run c).2.scope

section
variable {α β : Type} {s : Scope}

theorem givesFrom_pure {a : α} {Q : α → Scope → Prop} (h : Q a s) : GivesFrom s (pure a) Q := by
  rintro c rfl b hb
  cases hb
  exact h

theorem givesFrom_reject (p : Problem) (span : Span) (Q : α → Scope → Prop) :
    GivesFrom s (reject p span) Q := by
  intro c _ a ha
  cases ha

theorem givesFrom_any (m : Attempt α) : GivesFrom s m fun _ _ => True := fun _ _ _ _ => trivial

theorem GivesFrom.bind {m : Attempt α} {k : α → Attempt β} {P : α → Scope → Prop} {Q : β → Scope → Prop}
    (hm : GivesFrom s m P) (hk : ∀ a s', P a s' → GivesFrom s' (k a) Q) : GivesFrom s (m >>= k) Q := by
  intro c hc b hb
  rw [run_bind] at hb ⊢
  have hgives := hm c hc
  cases h : m.run.run c with
  | mk r c' =>
    rw [h] at hb hgives
    cases r with
    | none => cases hb
    | some a => exact hk a c'.scope (hgives a rfl) c' rfl b hb

theorem GivesFrom.imp {m : Attempt α} {P Q : α → Scope → Prop} (h : GivesFrom s m P)
    (hPQ : ∀ a s', P a s' → Q a s') : GivesFrom s m Q := fun c hc a ha => hPQ a _ (h c hc a ha)

theorem Looks.givesFrom {m : Attempt α} {Q : α → Prop} (h : Looks m Q) :
    GivesFrom s m fun a s' => s' = s ∧ Q a := by
  rintro c rfl a ha
  exact ⟨(h c).1, (h c).2 a ha⟩

theorem OnlyAdds.givesFrom {m : Attempt α} {Q : α → Scope → Prop} (hm : OnlyAdds m)
    (h : ∀ a s' new, Runs m.run s (some a) s' new → Q a s') : GivesFrom s m Q := by
  rintro c rfl a ha
  obtain ⟨r, s', new, hrun⟩ := hm c.scope
  have hc := hrun c.diagnostics
  rw [show m.run.run c = _ from hc] at ha ⊢
  cases ha
  exact h a s' new hrun

theorem GivesFrom.of_runs {m : Attempt α} {Q : α → Scope → Prop} (h : GivesFrom s m Q)
    {a : α} {s' : Scope} {new : List Diagnostic} (hrun : Runs m.run s (some a) s' new) : Q a s' := by
  have hgives := h ⟨s, []⟩ rfl a
  rw [hrun []] at hgives
  exact hgives rfl

theorem givesFrom_unless {c : Prop} [Decidable c] {p : Problem} {span : Span} {k : Unit → Attempt β}
    {Q : β → Scope → Prop} (h : GivesFrom s (k ()) Q) :
    GivesFrom s (if c then reject p span >>= k else k ()) Q := by
  by_cases hc : c
  · rw [if_pos hc]
    exact (givesFrom_reject p span fun _ _ => False).bind fun _ _ hfalse => hfalse.elim
  · rw [if_neg hc]
    exact h

end

theorem givesFrom_requiredReference (s : Scope) (v : Value) :
    GivesFrom s (requiredReference v) fun j s' => s' = s ∧ s.Refers v j := by
  cases v with
  | name token span =>
    rintro ⟨b, ds⟩ rfl j hj
    rw [run_requiredReference] at hj ⊢
    cases hb : b.require? token with
    | none =>
      rw [hb] at hj
      cases hj
    | some found =>
      rw [hb] at hj
      cases hj
      exact ⟨rfl, Scope.refers_of_require? hb span⟩
  | str text span => exact givesFrom_pure ⟨rfl, rfl⟩
  | _ => exact givesFrom_reject _ _ _

/-- A field of the record is the reference of the argument. -/
def Record.Names (r : Record) (s : Scope) (field : String) (argument : Option Value) : Prop :=
  ∃ v j, argument = some v ∧ r.get? field = some j ∧ s.Refers v j

/-! ## Conditions and filters -/

/-- The entity that a condition asks for. -/
theorem Condition.givesFrom_compile {t : Statement} (ht : t.plainKeyword? = some "entity_exists")
    (n : Nested) (s : Scope) : GivesFrom s (compile t n) fun j _ => ∃ r : Record, j = .obj r ∧
    r.Names s "entity" t.positional[0]? := by
  have hkeyword : t.plainKeyword?.bind Keyword.ofWord? = some .entityExists := by
    rw [ht]
    rfl
  have hfields : GivesFrom s (Keyword.entityExists.fields t n) fun r _ =>
    ∃ e v, t.positional[0]? = some v ∧
      r = [("entity", e)] ∧ s.Refers v e := by
    refine (((Args.of t).fixed_value _).looks.givesFrom (s := s)).bind ?_
    rintro ⟨v, args⟩ _ ⟨rfl, hv⟩
    refine (givesFrom_requiredReference _ v).bind ?_
    rintro e _ ⟨rfl, he⟩
    have hfirst : t.positional[0]? = some v := List.head?_eq_getElem? ▸ congrArg List.head? hv
    exact (givesFrom_any args.finish).bind fun _ _ _ => givesFrom_pure ⟨e, v, hfirst, rfl, he⟩
  unfold compile
  simp only [hkeyword]
  refine givesFrom_unless (hfields.bind ?_)
  rintro _ _ ⟨e, v, hv, rfl, he⟩
  exact givesFrom_pure ⟨_, rfl, v, e, hv, rfl, he⟩

theorem givesFrom_references (s : Scope) (vs : List Value) :
    GivesFrom s (vs.mapM requiredReference) fun js s' => s' = s ∧ List.Forall₂ s.Refers vs js := by
  induction vs with
  | nil => exact givesFrom_pure ⟨rfl, .nil⟩
  | cons v vs ih =>
    rw [List.mapM_cons]
    refine (givesFrom_requiredReference s v).bind ?_
    rintro j _ ⟨rfl, hj⟩
    refine ih.bind ?_
    rintro js _ ⟨rfl, hjs⟩
    exact givesFrom_pure ⟨rfl, .cons hj hjs⟩

/-- The entities that a filter leaves out. -/
theorem Filter.givesFrom_compile {t : Statement} (ht : t.plainKeyword? = some "exclude") (n : Nested)
    (s : Scope) : GivesFrom s (compile t n) fun j _ => ∃ (r : Record) (js : List Json), j = .obj r ∧
      r.get? "entities" = some (.arr js) ∧
      List.Forall₂ s.Refers (Args.of t).flat js := by
  have hkeyword : t.plainKeyword?.bind Keyword.ofWord? = some .exclude := by
    rw [ht]
    rfl
  have hfields : GivesFrom s (Keyword.exclude.fields t n) fun r _ => ∃ js : List Json, r =
    [("entities", .arr js)] ∧
      List.Forall₂ s.Refers (Args.of t).flat js := by
    refine (givesFrom_references s _).bind ?_
    rintro js _ ⟨rfl, hjs⟩
    exact givesFrom_unless (givesFrom_pure ⟨js, rfl, hjs⟩)
  unfold compile
  simp only [hkeyword]
  refine givesFrom_unless (hfields.bind ?_)
  rintro _ _ ⟨js, rfl, hjs⟩
  exact givesFrom_pure ⟨_, js, rfl, rfl, hjs⟩

/-! ## Relationships -/

namespace Record

theorem keys_set_of_mem {r : Record} {key : String} (h : key ∈ r.keys) (v : Json) :
    (r.set key v).keys = r.keys := by
  induction r with
  | nil => cases h
  | cons m r ih =>
    obtain ⟨k, x⟩ := m
    unfold set
    by_cases hk : k = key
    · subst hk
      rw [if_pos rfl, keys_cons, keys_cons]
    · rw [if_neg hk, keys_cons, keys_cons, ih ((List.mem_cons.1 h).resolve_left (Ne.symm hk))]

theorem nodup_setAll {r : Record} (h : r.keys.Nodup) (s : Record) : (r.setAll s).keys.Nodup := by
  induction s generalizing r with
  | nil => exact h
  | cons m s ih =>
    rw [setAll_cons]
    apply ih
    by_cases hm : m.1 ∈ r.keys
    · rw [keys_set_of_mem hm]
      exact h
    · rw [set_of_not_mem hm, keys_append]
      exact List.Nodup.append h (List.nodup_singleton m.1) (List.disjoint_singleton.2 hm)

theorem get?_setAll_of_not_mem (r : Record) {s : Record} {key : String} (h : key ∉ s.keys) :
    (r.setAll s).get? key = r.get? key := by
  rw [get?_setAll]
  cases hs : (ofPairs s).get? key with
  | none => rfl
  | some v => exact absurd (mem_keys_of_ofPairs hs) h

end Record

/-- What an attempt gives, when what comes next is taken in either case. -/
theorem givesFrom_outcome {α : Type} {s : Scope} {m : Attempt α} {Q : α → Scope → Prop}
    (hm : Looks m fun _ => True) (h : GivesFrom s m Q) : GivesFrom s (OptionT.lift m.run) fun r s' =>
    s' = s ∧ ∀ a, r = some a → Q a s := by
  rintro c rfl r hr
  have hrun : (OptionT.lift m.run).run.run c = (some (m.run.run c).1, (m.run.run c).2) := rfl
  rw [hrun] at hr ⊢
  cases hr
  refine ⟨(hm c).1, fun a ha => ?_⟩
  have hgives := h c rfl a ha
  rw [(hm c).1] at hgives
  exact hgives

theorem givesFrom_requiredEnds (s : Scope) (source target : Value) :
    GivesFrom s (relationshipEnds true source target) fun p s' => s' = s ∧ s.Refers source p.1 ∧
    s.Refers target p.2 := by
  unfold relationshipEnds
  rw [if_pos rfl]
  refine (givesFrom_outcome (looks_requiredReference source)
    (givesFrom_requiredReference s source)).bind ?_
  rintro first _ ⟨rfl, hfirst⟩
  refine (givesFrom_outcome (looks_requiredReference target)
    (givesFrom_requiredReference _ target)).bind ?_
  rintro second _ ⟨rfl, hsecond⟩
  cases first with
  | none => exact fun c _ p hp => by cases hp
  | some a =>
    cases second with
    | none => exact fun c _ p hp => by cases hp
    | some b => exact givesFrom_pure ⟨rfl, (hfirst a rfl).2, (hsecond b rfl).2⟩

theorem givesFrom_labelAlias (s : Scope) (label : Option Value) :
    GivesFrom s (labelAlias label) fun bound _ => bound = [] ∨ ∃ j, bound = [("as", j)] := by
  cases label with
  | none => exact givesFrom_pure (.inl rfl)
  | some label =>
    refine (givesFrom_any _).bind fun name _ _ => ?_
    rintro c rfl bound hbound
    cases hbound
    exact .inr ⟨_, rfl⟩

theorem givesFrom_pairFields (s : Scope) (vs : List Value) (span : Span) (r : Record) :
    GivesFrom s (pairFields vs span r) fun r' _ => ∃ pairs, Value.pairs? vs = some pairs ∧
      r' = r.setAll (Value.assigned s pairs) := by
  refine (tries_pairFields vs span r).onlyAdds.givesFrom fun r' s' new hrun => ?_
  obtain ⟨pairs, hpairs, hr', -⟩ := pairs_of_runs_pairFields hrun
  exact ⟨pairs, hpairs, hr'⟩

/-- Both ends of a relationship whose ends have to be bound are references,
unless a pair behind them sets them again. -/
theorem Statement.givesFrom_relationship (s : Scope) (key : String) (label : Option Value)
    (kind source target : Value) (values : List Value) (span : Span) :
    GivesFrom s (Statement.relationship true (.rel key label kind source target values span)) fun r _ =>
      r.keys.Nodup ∧ ∃ pairs, Value.pairs? (strengthFirst values).2 = some pairs ∧
        ("src" ∉ pairs.map Prod.fst → r.Names s "src" (some source)) ∧
        ("dst" ∉ pairs.map Prod.fst → r.Names s "dst" (some target)) := by
  unfold Statement.relationship
  refine ((fixed_rowText "kind" kind).looks.givesFrom (s := s)).bind ?_
  rintro kind _ ⟨rfl, -⟩
  refine (givesFrom_requiredEnds _ source target).bind ?_
  rintro ⟨first, second⟩ _ ⟨rfl, hfirst, hsecond⟩
  refine (givesFrom_labelAlias _ label).bind fun bound s' hbound => ?_
  refine (givesFrom_pairFields s' _ span _).imp ?_
  rintro r _ ⟨pairs, hpairs, rfl⟩
  have hkeys : (Value.assigned s' pairs).keys = pairs.map Prod.fst := by
    simp [Value.assigned, Record.keys]
  have hnodup :
    (Record.keys ([("kind", .str kind), ("src", first), ("dst", second)] ++ (strengthFirst values).1 ++
      bound)).Nodup := by
    have hstrength : (strengthFirst values).1 = [] ∨ ∃ n, (strengthFirst values).1 =
      [("strength", .ofNumber n)] := by
      fun_cases strengthFirst values with
      | case1 n span rest => exact .inr ⟨n, rfl⟩
      | case2 => exact .inl rfl
    rcases hstrength with hstrength | ⟨n, hstrength⟩ <;> rcases hbound with rfl | ⟨j, rfl⟩ <;>
      simp [hstrength, Record.keys]
  refine ⟨Record.nodup_setAll hnodup _, pairs, hpairs, fun hsrc => ?_, fun hdst => ?_⟩
  · exact ⟨source, first, rfl, Record.get?_setAll_of_not_mem _ (hkeys ▸ hsrc), hfirst⟩
  · exact ⟨target, second, rfl, Record.get?_setAll_of_not_mem _ (hkeys ▸ hdst), hsecond⟩

/-! ## Mutations -/

namespace Mutation

/-- The fields of a line that name entities, and the places of the arguments they are read from. -/
def Keyword.places : Keyword → List (String × Nat)
  | .adjustProminence | .changeStatus | .setTag | .removeTag | .archiveRelationship
  | .archiveAllRelationships | .forEachRelated => [("entity", 0)]
  | .transferRelationship => [("entity", 0), ("from", 3), ("to", 5)]
  | _ => []

/-- The fields of a mutation that name entities, and the arguments they are read from.
The end of a relationship is none of them if a pair behind the ends sets it again. -/
def required (t : Statement) : List (String × Option Value) :=
  match Keyword.ofStatement? t, t with
  | some .adjustProminence, .mutate _ subject _ _ _ => [("entity", some subject)]
  | some _, .mutate .. => []
  | some _, .rel _ _ _ source target values _ =>
    [("src", some source), ("dst", some target)].filter fun p =>
      !((Value.pairs? (strengthFirst values).2).getD []).any fun pair => pair.1 = p.1
  | some k, t => k.places.map fun place => (place.1, t.positional[place.2]?)
  | none, _ => []

theorem givesFrom_entity (s : Scope) (args : Args) :
    GivesFrom s (entity args) fun p s' => s' = s ∧ ∃ v, args.rest = v :: p.2.rest ∧ s.Refers v p.1 := by
  refine ((args.fixed_value _).looks.givesFrom (s := s)).bind ?_
  rintro ⟨v, args⟩ _ ⟨rfl, hv⟩
  refine (givesFrom_requiredReference _ v).bind ?_
  rintro e _ ⟨rfl, he⟩
  exact givesFrom_pure ⟨rfl, v, hv, he⟩

theorem givesFrom_entityAndKind (s : Scope) (args : Args) :
    GivesFrom s (entityAndKind args) fun p s' => s' = s ∧ ∃ v w j kind, args.rest = v :: w :: p.2.rest ∧
      s.Refers v j ∧ p.1 = [("entity", j), textField "relationshipKind" kind] := by
  refine (givesFrom_entity s args).bind ?_
  rintro ⟨e, args⟩ _ ⟨rfl, v, hv, he⟩
  refine ((args.fixed_text _).looks.givesFrom (s := _)).bind ?_
  rintro ⟨kind, args⟩ _ ⟨rfl, w, -, hw⟩
  dsimp only at hv hw
  exact givesFrom_pure ⟨rfl, v, w, e, kind, by rw [hv, hw], he, rfl⟩

theorem givesFrom_transferEnd (s : Scope) (t : Statement) (args : Args) (word : String) :
    GivesFrom s (transferEnd t args word) fun p s' => s' = s ∧ ∃ m v j, args.rest = m :: v :: p.2.rest ∧
      s.Refers v j ∧ p.1 = (word, j) := by
  unfold transferEnd
  split
  · exact givesFrom_reject _ _ _
  · next args' hmarker =>
    obtain ⟨m, -, hm⟩ := Args.marker_true hmarker
    refine ((args'.fixed_value _).looks.givesFrom (s := s)).bind ?_
    rintro ⟨v, args''⟩ _ ⟨rfl, hv⟩
    refine (givesFrom_requiredReference _ v).bind ?_
    rintro j _ ⟨rfl, hj⟩
    exact givesFrom_pure ⟨rfl, m, v, j, by rw [hm, hv], hj, rfl⟩

theorem givesFrom_ofMutate (s : Scope) (subject : Value) (change : Change) (amount : Number) :
    GivesFrom s (ofMutate .adjustProminence subject change amount) fun r _ =>
    ∃ e more, r = ("entity", e) :: more ∧
      s.Refers subject e := by
  simp only [ofMutate, pure_bind]
  refine (givesFrom_requiredReference s subject).bind ?_
  rintro e _ ⟨rfl, he⟩
  exact givesFrom_pure ⟨e, _, rfl, he⟩

theorem names_entity {s : Scope} {t : Statement} {v : Value} {vs : List Value} {j : Json}
    (hpos : t.positional = v :: vs) (hj : s.Refers v j) {r : Record} (hr : r.get? "entity" = some j) :
    ∀ place ∈ [("entity", 0)], r.Names s place.1 t.positional[place.2]? := by
  rw [List.forall_mem_singleton, hpos]
  exact ⟨v, j, rfl, hr, hj⟩

theorem givesFrom_fields (k : Keyword) (s : Scope) (t : Statement) (n : Nested) :
    GivesFrom s (k.fields t n) fun r _ =>
    ∀ place ∈ k.places, r.Names s place.1 t.positional[place.2]? := by
  have hentity := givesFrom_entity s (Args.of t)
  have hentityAndKind := givesFrom_entityAndKind s (Args.of t)
  unfold Keyword.fields
  cases k with
  | adjustProminence | changeStatus | removeTag =>
    refine hentity.bind ?_
    rintro ⟨e, args⟩ _ ⟨rfl, v, hv, he⟩
    refine (givesFrom_any _).bind fun ⟨text, args⟩ _ _ => ?_
    exact (givesFrom_any _).bind fun _ _ _ => givesFrom_pure (names_entity hv he rfl)
  | setTag =>
    refine hentity.bind ?_
    rintro ⟨e, args⟩ _ ⟨rfl, v, hv, he⟩
    refine (givesFrom_any _).bind fun ⟨tag, args⟩ _ _ => ?_
    refine (givesFrom_any _).bind fun ⟨source, args⟩ _ _ => (givesFrom_any _).bind fun source _ _ => ?_
    exact (givesFrom_any _).bind fun _ _ _ => givesFrom_pure (names_entity hv he rfl)
  | archiveRelationship =>
    refine hentityAndKind.bind ?_
    rintro ⟨subject, args⟩ _ ⟨rfl, v, w, j, kind, hv, hj, rfl⟩
    refine (givesFrom_any _).bind fun ⟨partner, args⟩ _ _ =>
      (givesFrom_any _).bind fun partner _ _ => ?_
    refine (givesFrom_any _).bind fun ⟨dir, args⟩ _ _ => ?_
    exact (givesFrom_any _).bind fun _ _ _ => givesFrom_pure (names_entity hv hj rfl)
  | archiveAllRelationships =>
    refine hentityAndKind.bind ?_
    rintro ⟨subject, args⟩ _ ⟨rfl, v, w, j, kind, hv, hj, rfl⟩
    refine (givesFrom_any _).bind fun ⟨dir, args⟩ _ _ => ?_
    exact (givesFrom_any _).bind fun _ _ _ => givesFrom_pure (names_entity hv hj rfl)
  | forEachRelated =>
    refine hentityAndKind.bind ?_
    rintro ⟨subject, args⟩ _ ⟨rfl, v, w, j, kind, hv, hj, rfl⟩
    refine (givesFrom_any _).bind fun ⟨dir, args⟩ _ _ =>
      (givesFrom_any _).bind fun ⟨name, args⟩ _ _ => ?_
    refine (givesFrom_any _).bind fun bound _ _ => (givesFrom_any _).bind fun _ _ _ => ?_
    exact (givesFrom_any _).bind fun actions _ _ => givesFrom_pure (names_entity hv hj rfl)
  | transferRelationship =>
    refine hentityAndKind.bind ?_
    rintro ⟨subject, args₁⟩ _ ⟨rfl, v, w, j, kind, hv, hj, rfl⟩
    refine (givesFrom_transferEnd _ t args₁ "from").bind ?_
    rintro ⟨giver, args₂⟩ _ ⟨rfl, m, a, e, ha, he, rfl⟩
    refine (givesFrom_transferEnd _ t args₂ "to").bind ?_
    rintro ⟨taker, args₃⟩ _ ⟨rfl, m', b, e', hb, he', rfl⟩
    refine (givesFrom_any _).bind fun _ _ _ => givesFrom_pure ?_
    have hpos : t.positional = v :: w :: m :: a :: m' :: b :: args₃.rest := by
      rw [← hb, ← ha]
      exact hv
    simp only [Keyword.places, List.forall_mem_cons, hpos]
    exact ⟨⟨v, j, rfl, rfl, hj⟩, ⟨a, e, rfl, rfl, he⟩, ⟨b, e', rfl, rfl, he'⟩, nofun⟩
  | _ => exact (givesFrom_any _).imp fun _ _ _ => nofun

/-- The `type` in front of the fields of a line takes the place of none of them. -/
theorem givesFrom_line (k : Keyword) (s : Scope) (t : Statement) (n : Nested) :
    GivesFrom s
      (do let fields ← k.fields t n
          return Json.obj (if k = .generic then fields else textField "type" k.typeName :: fields))
      fun j _ => ∃ r : Record, j = .obj r ∧
        ∀ place ∈ k.places, r.Names s place.1 t.positional[place.2]? := by
  refine (givesFrom_fields k s t n).bind fun fields _ hfields => givesFrom_pure ⟨_, rfl, ?_⟩
  intro place hplace
  have htype : place.1 ≠ "type" := by
    revert place
    cases k <;> decide
  obtain ⟨v, j, hv, hj, hrefers⟩ := hfields place hplace
  refine ⟨v, j, hv, ?_, hrefers⟩
  split
  · exact hj
  · rw [Record.get?_cons]
    exact (if_neg (Ne.symm htype)).trans hj

/-- A pair behind the target may set an end again. Only an end that no pair names is sure to stay. -/
theorem givesFrom_ends (s : Scope) (head : Record) (key : String) (label : Option Value)
    (kind source target : Value) (values : List Value) (span : Span) :
    GivesFrom s
      (do return Json.obj (head.setAll
        (← Statement.relationship true (.rel key label kind source target values span))))
      fun j _ => ∃ r : Record, j = .obj r ∧
        ∀ p ∈ [("src", some source), ("dst", some target)].filter fun p =>
          !((Value.pairs? (strengthFirst values).2).getD []).any fun pair => pair.1 = p.1,
          r.Names s p.1 p.2 := by
  refine (Statement.givesFrom_relationship s key label kind source target values span).bind ?_
  rintro fields _ ⟨hnodup, pairs, hpairs, hsource, htarget⟩
  refine givesFrom_pure ⟨_, rfl, ?_⟩
  have hfield {field : String} {v : Option Value} (hends : fields.Names s field v) :
      Record.Names (Record.setAll head fields) s field v := by
    obtain ⟨v, j, hv, hj, hrefers⟩ := hends
    refine ⟨v, j, hv, ?_, hrefers⟩
    rw [Record.get?_setAll, Record.ofPairs_of_nodup hnodup, hj]
    rfl
  intro p hp
  obtain ⟨hmem, hkept⟩ := List.mem_filter.1 hp
  have hfree : p.1 ∉ pairs.map Prod.fst := by
    intro h
    obtain ⟨pair, hpair, heq⟩ := List.mem_map.1 h
    simp only [hpairs, Option.getD_some, Bool.not_eq_true', List.any_eq_false,
      decide_eq_true_eq] at hkept
    exact hkept pair hpair heq
  simp only [List.mem_cons, List.not_mem_nil, or_false] at hmem
  obtain rfl | rfl := hmem
  · exact hfield (hsource hfree)
  · exact hfield (htarget hfree)

/-- The entities that a mutation acts on. -/
theorem givesFrom_compile (s : Scope) (t : Statement) (n : Nested) :
    GivesFrom s (compile t n) fun j _ => ∃ r : Record, j = .obj r ∧
    ∀ p ∈ required t, r.Names s p.1 p.2 := by
  unfold compile
  cases hkeyword : Keyword.ofStatement? t with
  | none => exact (fixed_unknown t fun _ => False).looks.givesFrom.imp fun _ _ h => h.2.elim
  | some k =>
    refine givesFrom_unless ?_
    cases t with
    | rel key label kind source target values span =>
      simp only [required, hkeyword]
      exact givesFrom_ends s [textField "type" k.typeName] key label kind source target values span
    | mutate target subject change amount span =>
      cases k with
      | adjustProminence =>
        refine (givesFrom_ofMutate s subject change amount).bind ?_
        rintro fields _ ⟨e, more, rfl, he⟩
        refine givesFrom_pure ⟨_, rfl, ?_⟩
        simp only [required, hkeyword, List.forall_mem_singleton]
        exact ⟨subject, e, rfl, rfl, he⟩
      | _ =>
        refine (givesFrom_any _).bind fun fields _ _ => givesFrom_pure ⟨_, rfl, ?_⟩
        simp only [required, hkeyword]
        exact nofun
    | _ =>
      simp only [required, hkeyword, List.forall_mem_map]
      exact givesFrom_line k s _ n

end Mutation

end Worldbook
