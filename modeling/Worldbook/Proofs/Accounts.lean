import Worldbook.Proofs.Identity
import Worldbook.Proofs.Silence

/-!
# Arguments that reach a record

Most attempts only read arguments: such an attempt reports nothing and gives
its result, or it gives up. `Accounts` says where the arguments of a
statement have gone, and each way of reading one extends it.
-/

namespace Worldbook

open CompileM

/-! ## Attempts that report only to give up -/

/-- With the bindings `s` the attempt reports nothing and gives a result with
the property, or it gives up. -/
def Answers {α : Type} (s : Scope) (m : Attempt α) (Q : α → Prop) : Prop :=
  (∃ a, Runs m.run s (some a) s [] ∧ Q a) ∨ ∃ s' new, Runs m.run s none s' new

section
variable {α β : Type} {s s' : Scope} {new : List Diagnostic}

theorem answers_pure {a : α} {Q : α → Prop} (h : Q a) : Answers s (pure a) Q :=
  .inl ⟨a, runs_pure _ s, h⟩

theorem answers_reject (p : Problem) (span : Span) (Q : α → Prop) : Answers s (reject p span) Q :=
  .inr ⟨s, [p.reported span], fun _ => rfl⟩

theorem Runs.after {m : Attempt α} {k : α → Attempt β} {t : Scope} {a : α} {b : β}
    (hm : Runs m.run s (some a) t []) (h : Runs (m >>= k).run s (some b) s' new) :
    Runs (k a).run t (some b) s' new := by
  intro ds
  rw [← h ds, OptionT.run_bind, Option.elimM, StateT.run_bind, hm ds, List.append_nil]
  rfl

theorem Answers.peel {m : Attempt α} {Q : α → Prop} (hm : Answers s m Q) {k : α → Attempt β} {b : β}
    (h : Runs (m >>= k).run s (some b) s' new) : ∃ a, Q a ∧ Runs (k a).run s (some b) s' new := by
  rcases hm with ⟨a, hrun, ha⟩ | ⟨t, reports, hrun⟩
  · exact ⟨a, ha, hrun.after h⟩
  · rw [OptionT.run_bind] at h
    have hnone := hrun.bind (k := fun r => r.elim (pure none) fun a => (k a).run) (runs_pure none t)
    cases (hnone.eq h).1

theorem Answers.bind {m : Attempt α} {P : α → Prop} (hm : Answers s m P) {k : α → Attempt β}
    {Q : β → Prop} (hk : ∀ a, P a → Answers s (k a) Q) : Answers s (m >>= k) Q := by
  rcases hm with ⟨a, hrun, ha⟩ | ⟨t, reports, hrun⟩
  · rcases hk a ha with ⟨b, hb, hQ⟩ | ⟨t, reports, hb⟩
    · exact .inl ⟨b, by rw [OptionT.run_bind]; exact hrun.bind hb, hQ⟩
    · exact .inr ⟨t, [] ++ reports, by rw [OptionT.run_bind]; exact hrun.bind hb⟩
  · exact .inr ⟨t, reports ++ [], by rw [OptionT.run_bind]; exact hrun.bind (runs_pure none t)⟩

theorem answers_reject_bind (p : Problem) (span : Span) (k : α → Attempt β) (Q : β → Prop) :
    Answers s (reject p span >>= k) Q := (answers_reject p span fun _ => False).bind fun _ h => h.elim

theorem not_runs_reject_bind {p : Problem} {span : Span} {k : α → Attempt β} {b : β} :
    ¬ Runs (reject p span >>= k).run s (some b) s' new := by
  intro h
  obtain ⟨_, hfalse, -⟩ := (answers_reject p span fun _ => False).peel h
  exact hfalse

theorem Answers.of_runs {m : Attempt α} {Q : α → Prop} (hm : Answers s m Q) {a : α}
    (h : Runs m.run s (some a) s' new) : Q a ∧ s' = s := by
  rcases hm with ⟨b, hrun, hb⟩ | ⟨t, reports, hrun⟩
  · obtain ⟨he, rfl, -⟩ := hrun.eq h
    cases he
    exact ⟨hb, rfl⟩
  · cases (hrun.eq h).1

theorem answers_lift {m : CompileM α} {a : α} (h : Runs m s a s []) {Q : α → Prop} (ha : Q a) :
    Answers s (liftM m) Q := .inl ⟨a, h.lift, ha⟩

end

theorem appends_setField (key : String) (value : Json) (span : Span) (r : Record) :
    Appends (setField key value span r) :=
  fun s => ⟨_, _, _, runs_setField key value span r s⟩

/-- What is declared for an alias is its own name again. -/
theorem runs_aliasField {name : Option String} (h : ∀ n ∈ name, Scope.hasSigil n = true) (s : Scope) :
    ∃ s', Runs (aliasField name) s (optionalText "as" name) s' [] := by
  obtain ⟨a, s', new, hrun, -⟩ := mirrors_aliasField name s
  obtain ⟨b, ctx, hctx, hnew, hb⟩ := yields_aliasField h ⟨s, []⟩
  obtain ⟨rfl, rfl⟩ := Prod.mk.inj ((hrun []).symm.trans hctx)
  cases hnew
  exact ⟨s', hb ▸ hrun⟩

/-! ## Arguments in a record -/

/-- Each value is a marker word, or stands in a field as it is written or as
the reference it makes; or all values are the items of one list. -/
inductive Accounts (scope : Scope) (markers : List String) : List Value → Record → Prop
  | nil : Accounts scope markers [] []
  | marker {v : Value} {word : String} {vs : List Value} {fs : Record} (hword : word ∈ markers)
      (hv : v.isWord word = true) (h : Accounts scope markers vs fs) :
      Accounts scope markers (v :: vs) fs
  | literal {v : Value} {vs : List Value} {fs : Record} (key : String)
      (h : Accounts scope markers vs fs) : Accounts scope markers (v :: vs) ((key, v.literal) :: fs)
  | reference {v : Value} {vs : List Value} {fs : Record} (key : String)
      (h : Accounts scope markers vs fs) :
      Accounts scope markers (v :: vs) ((key, v.resolved scope) :: fs)
  | list (a : Args) (key : String) : Accounts scope markers a.rest [(key, .arr (Value.literals a.flat))]

/-- The numbers of a comparison are the bounds. -/
inductive Limits : Option (Comparator × Number × Option Number) → Record → Prop
  | none : Limits none []
  | least (n : Number) : Limits (some (.ge, n, Option.none)) [("min", .ofNumber n)]
  | most (n : Number) : Limits (some (.le, n, Option.none)) [("max", .ofNumber n)]
  | range (n : Number) (upper : Option Number) :
      Limits (some (.eq, n, upper)) [("min", .ofNumber n), ("max", .ofNumber (upper.getD n))]

namespace Value

theorem literal_of_text? {v : Value} {t : String} (h : v.text? = some t) : v.literal = .str t := by
  cases v <;> simp_all [text?, literal]

theorem literal_of_number? {v : Value} {n : Number} (h : v.number? = some n) :
    v.literal = .ofNumber n := by
  cases v <;> simp_all [number?, literal]

end Value

namespace Args

def Puts (scope : Scope) (markers : List String) (a b : Args) (fs : Record) : Prop :=
  ∀ more, Accounts scope markers b.rest more → Accounts scope markers a.rest (fs ++ more)

variable {s : Scope} {markers : List String} {a b c : Args}

theorem Puts.trans {fs gs : Record} (h : Puts s markers a b fs) (h' : Puts s markers b c gs) :
    Puts s markers a c (fs ++ gs) := by
  intro more hmore
  rw [List.append_assoc]
  exact h _ (h' _ hmore)

theorem Puts.accounts {fs : Record} (h : Puts s markers a b fs) (hb : b.rest = []) :
    Accounts s markers a.rest fs := by
  have hall := h [] (hb ▸ .nil)
  rwa [List.append_nil] at hall

theorem answers_value (a : Args) (what : String) :
    Answers s (a.value what) fun p => a.rest = p.1 :: p.2.rest := by
  unfold value
  split
  · next v rest h => exact answers_pure h
  · exact answers_reject _ _ _

theorem answers_text (a : Args) (what : String) :
    Answers s (a.text what) fun p => ∀ markers key, Puts s markers a p.2 [textField key p.1] := by
  refine (answers_value a what).bind fun ⟨v, b⟩ hv => ?_
  cases ht : v.text? with
  | none =>
    simp only [ht]
    exact answers_reject _ _ _
  | some t =>
    simp only [ht]
    refine answers_pure fun markers key more hmore => ?_
    rw [hv, textField, ← Value.literal_of_text? ht]
    exact .literal key hmore

theorem answers_number (a : Args) (what : String) :
    Answers s (a.number what) fun p => ∀ markers key, Puts s markers a p.2 [(key, .ofNumber p.1)] := by
  refine (answers_value a what).bind fun ⟨v, b⟩ hv => ?_
  cases hn : v.number? with
  | none =>
    simp only [hn]
    exact answers_reject _ _ _
  | some n =>
    simp only [hn]
    refine answers_pure fun markers key more hmore => ?_
    rw [hv, ← Value.literal_of_number? hn]
    exact .literal key hmore

theorem puts_marker {word : String} (hword : word ∈ markers) :
    Puts s markers a (a.marker word).2 [] := by
  intro more hmore
  unfold marker at hmore
  split at hmore
  · next v rest h =>
    split at hmore
    · next hv =>
      rw [h]
      exact .marker hword hv hmore
    · exact hmore
  · exact hmore

theorem puts_text? (key : String) : Puts s markers a a.text?.2 (optionalText key a.text?.1) := by
  intro more hmore
  rcases a with ⟨word, span, _ | ⟨v, rest⟩⟩
  · exact hmore
  · simp only [text?, List.head?_cons, Option.bind_some] at hmore ⊢
    cases ht : v.text? with
    | none =>
      rw [ht] at hmore
      exact hmore
    | some t =>
      rw [ht] at hmore
      have hfield : Accounts s markers (v :: rest) ((key, v.literal) :: more) := .literal key hmore
      rw [Value.literal_of_text? ht] at hfield
      exact hfield

/-- A value that may be there, as the reference it makes. -/
theorem puts_value? (key : String) :
    Puts s markers a a.value?.2 ((a.value?.1.map fun v => (key, v.resolved s)).toList) := by
  intro more hmore
  rcases a with ⟨word, span, _ | ⟨v, rest⟩⟩
  · exact hmore
  · exact .reference key hmore

theorem answers_finish (a : Args) : Answers s a.finish fun _ => a.rest = [] := by
  unfold finish
  split
  · next h => exact answers_pure h
  · exact answers_reject _ _ _

theorem answers_markedText (markers : List String) (a : Args) {word : String} (hword : word ∈ markers)
    (what : String) : Answers s (a.markedText word what) fun p =>
    ∀ key, Puts s markers a p.2 (optionalText key p.1) := by
  have hmarker := puts_marker (s := s) (a := a) hword
  unfold markedText
  split
  · next b hb =>
    rw [hb] at hmarker
    exact (answers_text b what).bind fun p hp => answers_pure fun key => hmarker.trans (hp markers key)
  · next b hb =>
    rw [hb] at hmarker
    exact answers_pure fun key => hmarker

theorem answers_markedValue (markers : List String) (a : Args) {word : String} (hword : word ∈ markers)
    (what : String) : Answers s (a.markedValue word what) fun p => ∀ key,
      Puts s markers a p.2 ((p.1.map fun v => (key, v.resolved s)).toList) := by
  have hmarker := puts_marker (s := s) (a := a) hword
  unfold markedValue
  split
  · next b hb =>
    rw [hb] at hmarker
    refine (answers_value b what).bind fun ⟨v, c⟩ hv => answers_pure fun key => ?_
    refine hmarker.trans fun more hmore => ?_
    rw [hv]
    exact .reference key hmore
  · next b hb =>
    rw [hb] at hmarker
    exact answers_pure fun key => hmarker

end Args

section
variable {s : Scope}

theorem answers_optionalReference (key : String) (v : Option Value) :
    Answers s (liftM (optionalReference key v)) (· = (v.map fun v => (key, v.resolved s)).toList) := by
  cases v with
  | none => exact answers_lift (runs_pure _ s) rfl
  | some v => exact answers_lift (runs_scope (fun s => [(key, v.resolved s)]) s) rfl

theorem answers_reference (v : Value) : Answers s (liftM (reference v)) (· = v.resolved s) :=
  answers_lift (runs_scope v.resolved s) rfl

theorem answers_requiredReference (v : Value) : Answers s (requiredReference v) (· = v.resolved s) := by
  cases v with
  | name token span =>
    cases h : s.require? token with
    | some found =>
      refine .inl ⟨.str found, fun ds => ?_, by rw [Value.resolved, Scope.resolve, h]; rfl⟩
      rw [run_requiredReference, h]
      exact runs_pure _ s ds
    | none =>
      refine .inr ⟨s, [(Problem.unresolvedReference token).reported span], fun ds => ?_⟩
      rw [run_requiredReference, h]
      rfl
  | str text span => exact answers_pure rfl
  | _ => exact answers_reject _ _ _

theorem answers_boundFields (comparison : Comparator × Number × Option Number) (span : Span) :
    Answers s (boundFields comparison span) (Limits (some comparison)) := by
  obtain ⟨comparator, n, upper⟩ := comparison
  simp only [boundFields]
  split
  · exact answers_reject _ _ _
  · next hrange =>
    cases comparator with
    | gt | lt => exact answers_reject _ _ _
    | eq => exact answers_pure (.range n upper)
    | ge =>
      obtain rfl : upper = none := by simpa using hrange
      exact answers_pure (.least n)
    | le =>
      obtain rfl : upper = none := by simpa using hrange
      exact answers_pure (.most n)

theorem answers_optionalBounds (t : Statement) :
    Answers s (optionalBounds t) (Limits t.comparison?) := by
  unfold optionalBounds
  cases t.comparison? with
  | none => exact answers_pure .none
  | some comparison => exact answers_boundFields comparison _

theorem answers_requiredBounds (t : Statement) :
    Answers s (requiredBounds t) (Limits t.comparison?) := by
  unfold requiredBounds
  cases t.comparison? with
  | none => exact answers_reject _ _ _
  | some comparison => exact answers_boundFields comparison _

end

end Worldbook
