import Worldbook.Proofs.Raising
import Worldbook.Proofs.Skipping

/-!
# Steps that lift

`Lifts` compares a step with few bindings to a step with more of them. The steps that everything is
compiled with lift, and a compound of steps that lift does so too.
-/

namespace Worldbook

open CompileM

/-! ## The judgement -/

def NoErrors (new : List Diagnostic) : Prop := ∀ d ∈ new, d.isError = false

/-- The step runs from all bindings and only adds to them. -/
def OnlyBinds {α : Type} (m : CompileM α) : Prop :=
  ∀ s, ∃ a s' new, Runs m s a s' new ∧ s.names <+: s'.names

/-- The first step only adds bindings. If it reports no error, the second
step, with those bindings and more, has the same reports, again at least the
bindings of the first, and a result that is related to that of the first. -/
def Lifts {α : Type} (R : α → α → Prop) (m n : CompileM α) : Prop :=
  ∀ s t, s.names ⊆ t.names → ∃ a s' new, Runs m s a s' new ∧ s.names <+: s'.names ∧
    (NoErrors new → ∃ b t', Runs n t b t' new ∧ s'.names ⊆ t'.names ∧ R a b)

def Componentwise {α β : Type} (R : α → α → Prop) (R' : β → β → Prop) (p q : α × β) : Prop :=
  R p.1 q.1 ∧ R' p.2 q.2

def BothGive {α : Type} (R : α → α → Prop) (r r' : Option α) : Prop :=
  ∃ a b, r = some a ∧ r' = some b ∧ R a b

/-- An attempt that reports no error does not give up, and with more bindings
gives a related result. -/
abbrev Rises {α : Type} (R : α → α → Prop) (m n : Attempt α) : Prop := Lifts (BothGive R) m.run n.run

section
variable {α β σ : Type} {R : α → α → Prop} {R' : β → β → Prop}

theorem NoErrors.of_append {new more : List Diagnostic} (h : NoErrors (new ++ more)) :
    NoErrors new ∧ NoErrors more :=
  ⟨fun d hd => h d (List.mem_append_left _ hd), fun d hd => h d (List.mem_append_right _ hd)⟩

theorem noErrors_nil : NoErrors [] := nofun

theorem NoErrors.absurd {new : List Diagnostic} (h : NoErrors new) (he : ∃ d ∈ new, d.isError = true)
    {P : Prop} : P := by
  obtain ⟨d, hd, herror⟩ := he
  rw [h d hd] at herror
  cases herror

theorem onlyBinds_pure (a : α) :
    OnlyBinds (pure a) := fun s => ⟨a, s, [], runs_pure a s, List.prefix_refl _⟩

theorem OnlyBinds.bind {m : CompileM α} {k : α → CompileM β} (hm : OnlyBinds m)
    (hk : ∀ a, OnlyBinds (k a)) : OnlyBinds (m >>= k) := by
  intro s
  obtain ⟨a, s₁, new, hrun, hgrows⟩ := hm s
  obtain ⟨b, s₂, more, hrun', hgrows'⟩ := hk a s₁
  exact ⟨b, s₂, new ++ more, hrun.bind hrun', hgrows.trans hgrows'⟩

theorem Lifts.onlyBinds {m n : CompileM α} (h : Lifts R m n) : OnlyBinds m := by
  intro s
  obtain ⟨a, s', new, hrun, hgrows, -⟩ := h s s (List.Subset.refl _)
  exact ⟨a, s', new, hrun, hgrows⟩

theorem Lifts.imp {m n : CompileM α} {S : α → α → Prop} (h : Lifts R m n) (hRS : ∀ a b, R a b → S a b) :
    Lifts S m n := by
  intro s t hst
  obtain ⟨a, s', new, hrun, hgrows, hlift⟩ := h s t hst
  refine ⟨a, s', new, hrun, hgrows, ?_⟩
  intro hnew
  obtain ⟨b, t', hrun', hst', hab⟩ := hlift hnew
  exact ⟨b, t', hrun', hst', hRS a b hab⟩

/-- A step that leaves the bindings alone and reports the same in both cases. -/
theorem lifts_of_runs {m n : CompileM α} (h : ∀ s t, s.names ⊆ t.names → ∃ a b new, Runs m s a s new ∧
    Runs n t b t new ∧ (NoErrors new → R a b)) : Lifts R m n := by
  intro s t hst
  obtain ⟨a, b, new, hm, hn, hab⟩ := h s t hst
  exact ⟨a, s, new, hm, List.prefix_refl _, fun hnew => ⟨b, t, hn, hst, hab hnew⟩⟩

theorem lifts_pure {a b : α} (h : R a b) : Lifts R (pure a) (pure b) :=
  lifts_of_runs fun s t _ => ⟨a, b, [], runs_pure a s, runs_pure b t, fun _ => h⟩

/-- Two steps in a row. The first may go wrong, and then the second is still taken. -/
theorem Lifts.seq {m n : CompileM α} {k k' : α → CompileM β} (hm : Lifts R m n)
    (hall : ∀ a, OnlyBinds (k a)) (hk : ∀ a b, R a b → Lifts R' (k a) (k' b)) :
    Lifts R' (m >>= k) (n >>= k') := by
  intro s t hst
  obtain ⟨a, s₁, new, hrun, hgrows, hlift⟩ := hm s t hst
  obtain ⟨c, s₂, more, hrun', hgrows'⟩ := hall a s₁
  refine ⟨c, s₂, new ++ more, hrun.bind hrun', hgrows.trans hgrows', ?_⟩
  intro hnew
  obtain ⟨hfirst, hmore⟩ := hnew.of_append
  obtain ⟨b, t₁, hrunt, hst₁, hab⟩ := hlift hfirst
  obtain ⟨c', s₂', more', hrunc, -, hlift'⟩ := hk a b hab s₁ t₁ hst₁
  obtain ⟨rfl, rfl, rfl⟩ := hrun'.eq hrunc
  obtain ⟨d, t₂, hrund, hst₂, hcd⟩ := hlift' hmore
  exact ⟨d, t₂, hrunt.bind hrund, hst₂, hcd⟩

theorem Lifts.bind [Std.Refl R] {m n : CompileM α} {k k' : α → CompileM β} (hm : Lifts R m n)
    (hk : ∀ a b, R a b → Lifts R' (k a) (k' b)) : Lifts R' (m >>= k) (n >>= k') :=
  hm.seq (fun a => (hk a a (Std.Refl.refl a)).onlyBinds) hk

theorem lifts_report (p : Problem) (span : Span) :
    Lifts (fun _ _ => True) (report p span) (report p span) :=
  lifts_of_runs fun s t _ => ⟨(), (), _, runs_report p span s, runs_report p span t, fun _ => trivial⟩

instance reflDone : Std.Refl fun _ _ : Unit => True := ⟨fun _ => trivial⟩

theorem lifts_report_bind {p : Problem} {span : Span} {k k' : Unit → CompileM β}
    (h : Lifts R' (k ()) (k' ())) : Lifts R' (report p span >>= k) (report p span >>= k') :=
  (lifts_report p span).bind fun _ _ _ => h

/-! ## Attempts -/

theorem rises_pure {a b : α} (h : R a b) : Rises R (pure a) (pure b) := lifts_pure ⟨a, b, rfl, rfl, h⟩

theorem Rises.bind [Std.Refl R] {m n : Attempt α} {k k' : α → Attempt β} (hm : Rises R m n)
    (hk : ∀ a b, R a b → Rises R' (k a) (k' b)) : Rises R' (m >>= k) (n >>= k') := by
  rw [Rises, OptionT.run_bind, OptionT.run_bind]
  refine Lifts.seq hm ?_ ?_
  · intro r
    cases r with
    | none => exact onlyBinds_pure none
    | some a => exact (hk a a (Std.Refl.refl a)).onlyBinds
  · rintro _ _ ⟨a, b, rfl, rfl, hab⟩
    exact hk a b hab

theorem Rises.imp {m n : Attempt α} {S : α → α → Prop} (h : Rises R m n) (hRS : ∀ a b, R a b → S a b) :
    Rises S m n := by
  refine Lifts.imp h ?_
  rintro _ _ ⟨a, b, ha, hb, hab⟩
  exact ⟨a, b, ha, hb, hRS a b hab⟩

/-- What does not look at the bindings gives the same with more of them. -/
theorem Fixed.rises {m : Attempt α} {Q : α → Prop} (h : Fixed m Q) :
    Rises (fun a b => a = b ∧ Q a) m m := by
  obtain ⟨r, new, hruns, hgives, herror⟩ := h
  apply lifts_of_runs
  intro s t _
  refine ⟨r, r, new, hruns s, hruns t, ?_⟩
  intro hnew
  cases r with
  | none => exact hnew.absurd (herror rfl)
  | some a => exact ⟨a, a, rfl, rfl, rfl, hgives a rfl⟩

theorem Fixed.rises_bind {m : Attempt α} {Q : α → Prop} (h : Fixed m Q) {k k' : α → Attempt β}
    (hk : ∀ a, Q a → Rises R' (k a) (k' a)) : Rises R' (m >>= k) (m >>= k') := by
  obtain ⟨r, new, hruns, hgives, herror⟩ := h
  rw [Rises, OptionT.run_bind, OptionT.run_bind]
  intro s t hst
  cases r with
  | none =>
    refine ⟨none, s, new ++ [], (hruns s).bind (runs_pure none s), List.prefix_refl _, ?_⟩
    intro hnew
    exact hnew.of_append.1.absurd (herror rfl)
  | some a =>
    obtain ⟨c, s', more, hrun, hgrows, hlift⟩ := hk a (hgives a rfl) s t hst
    refine ⟨c, s', new ++ more, (hruns s).bind hrun, hgrows, ?_⟩
    intro hnew
    obtain ⟨d, t', hrun', hst', hcd⟩ := hlift hnew.of_append.2
    exact ⟨d, t', (hruns t).bind hrun', hst', hcd⟩

theorem rises_reject {p : Problem} (hp : p.severity = .error) (span : Span) :
    Rises R (reject p span) (reject p span) :=
  (fixed_reject hp span fun _ => False).rises.imp fun _ _ h => h.2.elim

theorem rises_unless {c : Prop} [Decidable c] {p : Problem} (hp : p.severity = .error) {span : Span}
    {k k' : Unit → Attempt β} (h : Rises R' (k ()) (k' ())) :
    Rises R' (if c then reject p span >>= k else k ()) (if c then reject p span >>= k' else k' ()) := by
  by_cases hc : c
  · rw [if_pos hc, if_pos hc]
    exact (fixed_reject hp span fun _ => False).rises_bind fun _ hfalse => hfalse.elim
  · rw [if_neg hc, if_neg hc]
    exact h

theorem Lifts.lift {m n : CompileM α} (h : Lifts R m n) : Rises R (liftM m) (liftM n) := by
  intro s t hst
  obtain ⟨a, s', new, hrun, hgrows, hlift⟩ := h s t hst
  refine ⟨some a, s', new, hrun.lift, hgrows, ?_⟩
  intro hnew
  obtain ⟨b, t', hrun', hst', hab⟩ := hlift hnew
  exact ⟨some b, t', hrun'.lift, hst', a, b, rfl, rfl, hab⟩

instance reflOutcome [Std.Refl R] : Std.Refl (Option.Rel R) where
  refl r := by
    cases r with
    | none => exact .none
    | some a => exact .some (Std.Refl.refl a)

instance reflItems [Std.Refl R] : Std.Refl (List.Forall₂ R) :=
  ⟨fun _ => List.forall₂_same.2 fun x _ => Std.Refl.refl x⟩

instance [Std.Refl R] [Std.Refl R'] : Std.Refl (Componentwise R R') :=
  ⟨fun _ => ⟨Std.Refl.refl _, Std.Refl.refl _⟩⟩

theorem Rises.run {m n : Attempt α} (h : Rises R m n) : Lifts (Option.Rel R) m.run n.run := by
  refine Lifts.imp h ?_
  rintro _ _ ⟨a, b, rfl, rfl, hab⟩
  exact .some hab

theorem lifts_orElseKeep {R : σ → σ → Prop} [Std.Refl R] {m n : Attempt σ} (h : Rises R m n) {a b : σ}
    (hab : R a b) : Lifts R (orElseKeep m a) (orElseKeep n b) := by
  refine h.run.bind fun r r' hr => lifts_pure ?_
  cases hr with
  | none => exact hab
  | some h => exact h

theorem lifts_collect [Std.Refl R'] {attempt : α → Attempt β} {xs : List α}
    (h : ∀ x ∈ xs, Rises R' (attempt x) (attempt x)) :
    Lifts (List.Forall₂ R') (collect attempt xs) (collect attempt xs) := by
  induction xs with
  | nil => exact lifts_pure .nil
  | cons x xs ih =>
    have hxs := ih fun y hy => h y (List.mem_cons_of_mem _ hy)
    refine (h x (List.mem_cons_self ..)).run.bind fun r r' hr => hxs.bind fun more more' hmore =>
      lifts_pure ?_
    cases hr with
    | none => exact hmore
    | some hab => exact .cons hab hmore

theorem lifts_thread {R : σ → σ → Prop} [Std.Refl R] {step : α → σ → CompileM σ} {xs : List α}
    (h : ∀ x ∈ xs, ∀ a b, R a b → Lifts R (step x a) (step x b)) {a b : σ} (hab : R a b) :
    Lifts R (thread step xs a) (thread step xs b) := by
  induction xs generalizing a b with
  | nil => exact lifts_pure hab
  | cons x xs ih =>
    refine (h x (List.mem_cons_self ..) a b hab).bind fun a b hab => ?_
    exact ih (fun y hy => h y (List.mem_cons_of_mem _ hy)) hab

end

/-! ## Fields -/

instance (names : List String) (place : Bool) : Std.Refl (Json.Raised names place) := ⟨.same place⟩

instance (names : List String) : Std.Refl (Record.Raised names) := ⟨.refl⟩

section
variable {names : List String} {r r' : Record} {v w : Json}

theorem lifts_declare (name : String) : Lifts (· = ·) (declare name) (declare name) := by
  intro s t hst
  exact ⟨_, _, [], runs_declare name s, s.grows_declare name,
    fun _ => ⟨_, _, runs_declare name t, Scope.declare_subset hst name, rfl⟩⟩

theorem lifts_aliasField (name : Option String) :
    Lifts (· = ·) (aliasField name) (aliasField name) := by
  cases name with
  | none => exact lifts_pure rfl
  | some name =>
    refine (lifts_declare name).bind ?_
    rintro bound _ rfl
    exact lifts_pure rfl

theorem lifts_reference {v : Value} (hv : v.bareNames ⊆ names) :
    Lifts (Json.Raised names true) (reference v) (reference v) := by
  apply lifts_of_runs
  intro s t hst
  exact ⟨_, _, [], runs_scope v.resolved s, runs_scope v.resolved t, fun _ => raised_resolved hst v hv⟩

theorem lifts_fieldValue (key : String) {v : Value} (hv : v.bareNames ⊆ names) :
    Lifts (Json.Raised names (isReferenceKey key)) (fieldValue key v) (fieldValue key v) := by
  apply lifts_of_runs
  intro s t hst
  refine ⟨_, _, [], runs_fieldValue key v s, runs_fieldValue key v t, fun _ => ?_⟩
  unfold Value.underKey
  by_cases hkey : Value.referenceKeys.contains key = true
  · have hplace : isReferenceKey key = true := by
      rw [List.contains_iff_mem] at hkey
      simp [isReferenceKey, hkey]
    rw [if_pos hkey, if_pos hkey, hplace]
    exact raised_resolved hst v hv
  · rw [if_neg hkey, if_neg hkey]
    exact .same _ _

/-- A reference that must be bound is the same with more bindings. -/
theorem rises_requiredReference (v : Value) :
    Rises (· = ·) (requiredReference v) (requiredReference v) := by
  cases v with
  | name token span =>
    intro s t hst
    cases hs : s.require? token with
    | some found =>
      have hrun {b : Scope} (hb : b.require? token = some found) :
          Runs (requiredReference (.name token span)).run b (some (Json.str found)) b [] := by
        intro ds
        rw [run_requiredReference, hb]
        exact runs_pure (some (Json.str found)) b ds
      refine ⟨_, _, [], hrun hs, List.prefix_refl _, fun _ => ?_⟩
      exact ⟨_, _, hrun (Scope.require?_subset hst hs), hst, _, _, rfl, rfl, rfl⟩
    | none =>
      have hrun : Runs (requiredReference (.name token span)).run s none s
          [(Problem.unresolvedReference token).reported span] := by
        intro ds
        rw [run_requiredReference, hs]
        rfl
      refine ⟨_, _, _, hrun, List.prefix_refl _, fun hnew => ?_⟩
      exact hnew.absurd ⟨_, List.mem_singleton_self _, rfl⟩
  | str text span => exact rises_pure rfl
  | _ => exact rises_reject rfl _

theorem lifts_setField (key : String) {span : Span} (hr : r.Raised names r')
    (hv : Json.Raised names (isReferenceKey key) v w) :
    Lifts (Record.Raised names) (setField key v span r) (setField key w span r') := by
  apply lifts_of_runs
  intro s t _
  refine ⟨_, _, _, runs_setField key v span r s, ?_, fun _ => hr.set key hv⟩
  rw [← hr.has key]
  exact runs_setField key w span r' t

theorem lifts_setEntry (name key : String) {duplicate : Problem} {span : Span} (hr : r.Raised names r')
    (hv : Json.Raised names (isReferenceKey key) v w) :
    Lifts (Record.Raised names) (setEntry name key v duplicate span r)
      (setEntry name key w duplicate span r') := by
  have hobject : Json.Raised names (isReferenceKey name) ((r.get? name).getD (.obj []))
    ((r'.get? name).getD (.obj [])) := by
    obtain ⟨hn, hn'⟩ | ⟨x, y, hx, hy, hxy⟩ := hr.get? name
    · rw [hn, hn']
      exact .same _ _
    · rw [hx, hy]
      exact hxy
  apply lifts_of_runs
  intro s t _
  obtain ⟨hnone, hnone'⟩ | ⟨held, held', hheld, hheld', hboth⟩ := hobject.object?
  · have hrefused {x : Json} (hx : x.object? = none) (held : Record) : x ≠ .obj held := by
      rintro rfl
      cases hx
    exact ⟨_, _, _, runs_setEntry_refused (hrefused hnone) s, runs_setEntry_refused (hrefused hnone') t,
      fun _ => hr⟩
  · refine ⟨_, _, _, runs_setEntry hheld s, ?_, fun _ => hr.set name (.obj (hboth.set key hv))⟩
    rw [← hboth.has key]
    exact runs_setEntry hheld' t

def Among (names : List String) (vs : List Value) : Prop := ∀ v ∈ vs, v.bareNames ⊆ names

theorem among_iff {vs : List Value} : Among names vs ↔ Value.bareNamesAll vs ⊆ names := by
  unfold Among
  induction vs with
  | nil => simp [Value.bareNamesAll]
  | cons v vs ih => rw [List.forall_mem_cons, ih, Value.bareNamesAll, List.append_subset]

theorem Among.of_cons {vs ws : List Value} {v : Value} (h : Among names vs) (hvs : vs = v :: ws) :
    v.bareNames ⊆ names ∧ Among names ws := by
  subst hvs
  exact List.forall_mem_cons.1 h

theorem rises_setPairs {vs : List Value} (hvs : Among names vs) (hr : r.Raised names r') :
    Rises (Record.Raised names) (setPairs vs r) (setPairs vs r') := by
  fun_induction setPairs vs r generalizing r' with
  | case1 key value rest r hkey =>
    simp only [setPairs, hkey]
    exact rises_reject rfl _
  | case2 key value rest r word hkey ih =>
    simp only [setPairs, hkey]
    obtain ⟨-, hvs⟩ := hvs.of_cons rfl
    obtain ⟨hvalue, hrest⟩ := hvs.of_cons rfl
    refine (lifts_fieldValue word hvalue).lift.bind fun v w hvw => ?_
    exact (lifts_setField word hr hvw).lift.bind fun r r' hr => ih r hrest hr
  | case3 vs r h =>
    have hnone (r : Record) : setPairs vs r = pure r := by
      cases vs with
      | nil => rfl
      | cons v vs =>
        cases vs with
        | nil => rfl
        | cons w vs => exact absurd rfl (h v w vs)
    rw [hnone]
    exact rises_pure hr

theorem rises_pairFields {vs : List Value} (hvs : Among names vs) (span : Span)
    (hr : r.Raised names r') :
    Rises (Record.Raised names) (pairFields vs span r) (pairFields vs span r') := by
  unfold pairFields
  split
  · exact rises_reject rfl _
  · exact rises_setPairs hvs hr

/-! ## Relationships -/

/-- Both ends are looked up, also where the first is not found. -/
theorem rises_requiredEnds (source target : Value) :
    Rises (· = ·) (relationshipEnds true source target) (relationshipEnds true source target) := by
  rw [Rises, run_relationshipEnds]
  refine Lifts.seq (rises_requiredReference source) ?_ ?_
  · exact fun first => (rises_requiredReference target).onlyBinds.bind fun second => onlyBinds_pure _
  · rintro _ _ ⟨a, _, rfl, rfl, rfl⟩
    refine Lifts.seq (rises_requiredReference target) (fun second => onlyBinds_pure _) ?_
    rintro _ _ ⟨b, _, rfl, rfl, rfl⟩
    exact lifts_pure ⟨_, _, rfl, rfl, rfl⟩

theorem rises_relationshipEnds (required : Bool) {source target : Value}
    (hsource : source.bareNames ⊆ names) (htarget : target.bareNames ⊆ names) :
    Rises (Componentwise (Json.Raised names true) (Json.Raised names true)) (relationshipEnds required
      source target) (relationshipEnds required source target) := by
  cases required with
  | true =>
    refine (rises_requiredEnds source target).imp ?_
    rintro p _ rfl
    exact ⟨.same _ _, .same _ _⟩
  | false =>
    refine (lifts_reference hsource).lift.bind fun x y hxy => ?_
    exact (lifts_reference htarget).lift.bind fun z w hzw => rises_pure ⟨hxy, hzw⟩

theorem rises_labelAlias (label : Option Value) :
    Rises (· = ·) (labelAlias label) (labelAlias label) := by
  unfold labelAlias
  cases label with
  | none => exact rises_pure rfl
  | some label =>
    exact (fixed_rowText "as" label).rises_bind fun name _ => (lifts_aliasField (some name)).lift

theorem strengthFirst_follow (vs : List Value) : ∃ read, vs = read ++ (strengthFirst vs).2 := by
  cases vs with
  | nil => exact ⟨[], rfl⟩
  | cons v vs =>
    cases v with
    | num n span => exact ⟨[.num n span], rfl⟩
    | _ => exact ⟨[], rfl⟩

theorem Statement.rises_relationship (required : Bool) (key : String) (label : Option Value)
    (kind : Value) {source target : Value} {values : List Value} (span : Span)
    (h : Among names (source :: target :: values)) :
    Rises (Record.Raised names) (Statement.relationship required
      (.rel key label kind source target values span))
        (Statement.relationship required (.rel key label kind source target values span)) := by
  obtain ⟨hsource, h⟩ := h.of_cons rfl
  obtain ⟨htarget, hvalues⟩ := h.of_cons rfl
  unfold Statement.relationship
  refine (fixed_rowText "kind" kind).rises_bind fun kind _ => ?_
  refine (rises_relationshipEnds required hsource htarget).bind ?_
  rintro ⟨src, dst⟩ ⟨src', dst'⟩ ⟨hsrc, hdst⟩
  dsimp only at hsrc hdst ⊢
  refine (rises_labelAlias label).bind ?_
  rintro bound _ rfl
  obtain ⟨read, hread⟩ := strengthFirst_follow values
  refine rises_pairFields (fun v hv => hvalues v (hread ▸ List.mem_append_right _ hv)) span ?_
  have hends : Record.Raised names [("kind", .str kind), ("src", src), ("dst", dst)]
      [("kind", .str kind), ("src", src'), ("dst", dst')] :=
    .cons "kind" (.same _ _) (.cons "src" hsrc (.cons "dst" hdst .nil))
  exact (hends.append (.refl _)).append (.refl bound)

end

end Worldbook
