import Mathlib.Data.List.Basic
import Worldbook.Compilation
import Worldbook.Proofs.Relocation

/-!
# What a compile step does

`Mirrors` relates a step to the same step on a source whose spans are forgotten. Whatever was
reported before, both add reports of their own; these differ in their spans alone, the bindings
after them are equal, and so are the results. `Tries` adds, for a step that may give up, that it
gives up only after it has reported an error.

Everything else about reports is read off these two judgements, which each language proves once for
each of its statements.
-/

namespace Worldbook

/-! ## Forgetting spans -/

abbrev Value.erased (v : Value) : Value := v.relocate fun _ => .nowhere

abbrev Statement.erased (s : Statement) : Statement := s.relocate fun _ => .nowhere

def Diagnostic.erased (d : Diagnostic) : Diagnostic := { d with span := d.span.map fun _ => .nowhere }

@[simp] theorem Diagnostic.isError_erased (d : Diagnostic) : d.erased.isError = d.isError := rfl

@[simp] theorem Problem.erased_reported (p : Problem) (span : Span) :
    (p.reported span).erased = p.reported .nowhere := rfl

/-! ## The two judgements -/

section
variable {α β : Type}

/-- From the bindings `s` the step gives `a`, leaves the bindings `s'`, and
adds the reports `new` to those before. -/
def Runs (m : CompileM α) (s : Scope) (a : α) (s' : Scope) (new : List Diagnostic) : Prop :=
  ∀ ds, m.run ⟨s, ds⟩ = (a, ⟨s', ds ++ new⟩)

/-- The second step does what the first does, the spans forgotten; `f` forgets those of a result. -/
def Mirrors (f : α → α) (m m' : CompileM α) : Prop :=
  ∀ s, ∃ a s' new, Runs m s a s' new ∧ Runs m' s (f a) s' (new.map Diagnostic.erased)

/-- The second attempt does what the first does, which gives up only after it
has reported an error. -/
def Tries (f : α → α) (m m' : Attempt α) : Prop :=
  ∀ s, ∃ r s' new, Runs m.run s r s' new ∧ Runs m'.run s (r.map f) s' (new.map Diagnostic.erased) ∧
    (r = none → ∃ d ∈ new, d.isError = true)

theorem runs_silent {m : CompileM α} {s s' : Scope} {a : α} (h : ∀ ds, m.run ⟨s, ds⟩ = (a, ⟨s', ds⟩)) :
    Runs m s a s' [] := fun ds => by rw [h, List.append_nil]

theorem runs_pure (a : α) (s : Scope) : Runs (pure a) s a s [] := runs_silent fun _ => rfl

theorem Runs.bind {m : CompileM α} {k : α → CompileM β} {s s' s'' : Scope} {a : α} {b : β}
    {new more : List Diagnostic} (hm : Runs m s a s' new) (hk : Runs (k a) s' b s'' more) :
    Runs (m >>= k) s b s'' (new ++ more) := by
  intro ds
  rw [StateT.run_bind, hm ds, ← List.append_assoc]
  exact hk _

theorem runs_report (p : Problem) (span : Span) (s : Scope) :
    Runs (CompileM.report p span) s () s [p.reported span] := fun _ => rfl

theorem mirrors_pure {f : α → α} {a b : α} (h : f a = b) : Mirrors f (pure a) (pure b) :=
  fun s => ⟨a, s, [], runs_pure a s, h ▸ runs_pure b s⟩

theorem Mirrors.bind {f : α → α} {g : β → β} {m m' : CompileM α} {k k' : α → CompileM β}
    (hm : Mirrors f m m') (hk : ∀ a, Mirrors g (k a) (k' (f a))) : Mirrors g (m >>= k) (m' >>= k') := by
  intro s
  obtain ⟨a, s', new, h, h'⟩ := hm s
  obtain ⟨b, s'', more, hb, hb'⟩ := hk a s'
  exact ⟨b, s'', new ++ more, h.bind hb, by rw [List.map_append]; exact h'.bind hb'⟩

theorem mirrors_report (p : Problem) (span span' : Span) (h : span' = .nowhere) :
    Mirrors id (CompileM.report p span) (CompileM.report p span') :=
  fun s => ⟨(), s, _, runs_report p span s, h ▸ runs_report p _ s⟩

theorem Mirrors.ite {c : Prop} [Decidable c] {f : α → α} {m n m' n' : CompileM α}
    (h : c → Mirrors f m m') (h' : ¬c → Mirrors f n n') :
    Mirrors f (if c then m else n) (if c then m' else n') := by
  split
  · next hc => exact h hc
  · next hc => exact h' hc

theorem tries_pure {f : α → α} {a b : α} (h : f a = b) : Tries f (pure a) (pure b) :=
  fun s => ⟨some a, s, [], runs_pure _ s, h ▸ runs_pure _ s, nofun⟩

theorem Tries.bind {f : α → α} {g : β → β} {m m' : Attempt α} {k k' : α → Attempt β} (hm : Tries f m m')
    (hk : ∀ a, Tries g (k a) (k' (f a))) : Tries g (m >>= k) (m' >>= k') := by
  intro s
  obtain ⟨r, s', new, h, h', herror⟩ := hm s
  cases r with
  | none =>
    have hfail : Runs (pure none : CompileM (Option β)) s' none s' [] := runs_pure none s'
    refine ⟨none, s', new, ?_, ?_, fun _ => herror rfl⟩
    · rw [OptionT.run_bind, ← List.append_nil new]
      exact h.bind hfail
    · rw [OptionT.run_bind, ← List.append_nil (new.map _)]
      exact h'.bind hfail
  | some a =>
    obtain ⟨b, s'', more, hb, hb', hmore⟩ := hk a s'
    refine ⟨b, s'', new ++ more, ?_, ?_, fun hnone => ?_⟩
    · rw [OptionT.run_bind]
      exact h.bind hb
    · rw [OptionT.run_bind, List.map_append]
      exact h'.bind hb'
    · obtain ⟨d, hd, he⟩ := hmore hnone
      exact ⟨d, List.mem_append_right _ hd, he⟩

/-- A step as an attempt that does not give up. -/
theorem Runs.lift {m : CompileM α} {s s' : Scope} {a : α} {new : List Diagnostic}
    (h : Runs m s a s' new) : Runs (liftM m : Attempt α).run s (some a) s' new := by
  have hrun : (liftM m : Attempt α).run = m >>= fun a => pure (some a) := by
    rw [bind_pure_comp]
    exact OptionT.run_monadLift m
  rw [hrun, ← List.append_nil new]
  exact h.bind (runs_pure _ _)

theorem Mirrors.lift {f : α → α} {m m' : CompileM α} (h : Mirrors f m m') :
    Tries f (liftM m) (liftM m') := by
  intro s
  obtain ⟨a, s', new, hm, hm'⟩ := h s
  exact ⟨some a, s', new, hm.lift, hm'.lift, nofun⟩

/-- An attempt as a step whose result says whether it gave up. -/
theorem Tries.run {f : α → α} {m m' : Attempt α} (h : Tries f m m') :
    Mirrors (Option.map f) m.run m'.run := by
  intro s
  obtain ⟨r, s', new, hm, hm', -⟩ := h s
  exact ⟨r, s', new, hm, hm'⟩

theorem Tries.ite {c : Prop} [Decidable c] {f : α → α} {m n m' n' : Attempt α} (h : c → Tries f m m')
    (h' : ¬c → Tries f n n') : Tries f (if c then m else n) (if c then m' else n') := by
  split
  · next hc => exact h hc
  · next hc => exact h' hc

end

namespace CompileM

section
variable {α β σ : Type}

theorem tries_reject {f : α → α} {p : Problem} (h : p.severity = .error) (span : Span) :
    Tries f (reject p span) (reject p .nowhere) :=
  fun s => ⟨none, s, [p.reported span], fun _ => rfl, fun _ => rfl,
    fun _ => ⟨_, List.mem_singleton_self _, decide_eq_true h⟩⟩

theorem tries_unless {c : Prop} [Decidable c] {f : β → β} {p : Problem} (hp : p.severity = .error)
    (span : Span) {k k' : Unit → Attempt β} (h : Tries f (k ()) (k' ())) :
    Tries f (if c then reject p span >>= k else k ())
      (if c then reject p .nowhere >>= k' else k' ()) := by
  exact Tries.ite (fun _ => Tries.bind (f := id) (tries_reject hp span) fun _ => h) fun _ => h

theorem mirrors_orElseKeep {f : σ → σ} {m m' : Attempt σ} (h : Tries f m m') (state : σ) :
    Mirrors f (orElseKeep m state) (orElseKeep m' (f state)) := by
  refine h.run.bind fun r => mirrors_pure ?_
  cases r <;> rfl

theorem mirrors_collect {f : β → β} {attempt attempt' : α → Attempt β} {xs ys : List α}
    (h : List.Forall₂ (fun x y => Tries f (attempt x) (attempt' y)) xs ys) :
    Mirrors (List.map f) (collect attempt xs) (collect attempt' ys) := by
  induction h with
  | nil => exact mirrors_pure rfl
  | cons hx _ ih =>
    refine hx.run.bind fun r => ih.bind fun more => mirrors_pure ?_
    cases r <;> rfl

theorem mirrors_thread {f : σ → σ} {step step' : α → σ → CompileM σ} {xs ys : List α}
    (h : List.Forall₂ (fun x y => ∀ state, Mirrors f (step x state) (step' y (f state))) xs ys)
    (state : σ) : Mirrors f (thread step xs state) (thread step' ys (f state)) := by
  induction h generalizing state with
  | nil => exact mirrors_pure rfl
  | cons hx _ ih => exact (hx state).bind ih

end

/-! ## Bindings and fields -/

theorem runs_declare (name : String) (s : Scope) :
    Runs (declare name) s (s.declare name).2 (s.declare name).1 [] :=
  runs_silent fun _ => rfl

theorem mirrors_declare (name : String) : Mirrors id (declare name) (declare name) :=
  fun s => ⟨_, _, [], runs_declare name s, runs_declare name s⟩

theorem mirrors_aliasField (name : Option String) : Mirrors id (aliasField name) (aliasField name) := by
  cases name with
  | none => exact mirrors_pure rfl
  | some name => exact (mirrors_declare name).bind fun _ => mirrors_pure rfl

/-- A step that only looks at the bindings. -/
theorem runs_scope {α : Type} (f : Scope → α) (s : Scope) :
    Runs (do return f (← get).scope : CompileM α) s (f s) s [] :=
  runs_silent fun _ => rfl

theorem mirrors_scope {α : Type} {f g : Scope → α} (h : ∀ s, g s = f s) :
    Mirrors id (do return f (← get).scope : CompileM α) (do return g (← get).scope) := by
  obtain rfl : g = f := funext h
  exact fun s => ⟨_, s, [], runs_scope g s, runs_scope g s⟩

theorem mirrors_reference (v : Value) : Mirrors id (reference v) (reference v.erased) :=
  mirrors_scope fun s => v.resolved_relocate _ s

theorem mirrors_fieldValue (key : String) (v : Value) :
    Mirrors id (fieldValue key v) (fieldValue key v.erased) :=
  mirrors_scope fun s => v.underKey_relocate _ s key

theorem run_requiredReference (token : String) (span : Span) (s : Scope) (ds : List Diagnostic) :
    (requiredReference (.name token span)).run.run ⟨s, ds⟩ =
      (match s.require? token with
        | some found => pure (.str found)
        | none => reject (.unresolvedReference token) span : Attempt Json).run.run ⟨s, ds⟩ := rfl

theorem tries_requiredReference (v : Value) :
    Tries id (requiredReference v) (requiredReference v.erased) := by
  cases v with
  | name token span =>
    intro s
    cases h : s.require? token with
    | some found =>
      have hrun (span : Span) :
        Runs (requiredReference (.name token span)).run s (some (.str found)) s [] := by
        intro ds
        rw [run_requiredReference, h]
        exact runs_pure _ s ds
      exact ⟨some (.str found), s, [], hrun span, hrun .nowhere, nofun⟩
    | none =>
      have hrun (span : Span) : Runs (requiredReference (.name token span)).run s none s
          [(Problem.unresolvedReference token).reported span] := by
        intro ds
        rw [run_requiredReference, h]
        rfl
      exact ⟨none, s, [(Problem.unresolvedReference token).reported span], hrun span, hrun .nowhere,
        fun _ => ⟨_, List.mem_singleton_self _, rfl⟩⟩
  | str text span => exact tries_pure rfl
  | _ => exact tries_reject rfl _

theorem mirrors_setField (key : String) (value : Json) (span : Span) (r : Record) :
    Mirrors id (setField key value span r) (setField key value .nowhere r) := by
  unfold setField
  refine Mirrors.ite (fun _ => ?_) fun _ => mirrors_pure rfl
  exact (mirrors_report _ span _ rfl).bind fun _ => mirrors_pure rfl

theorem mirrors_setEntry (name key : String) (value : Json) {duplicate : Problem} (span : Span)
    (r : Record) :
    Mirrors id (setEntry name key value duplicate span r)
      (setEntry name key value duplicate .nowhere r) := by
  unfold setEntry
  split
  · refine Mirrors.ite (fun _ => ?_) fun _ => mirrors_pure rfl
    exact (mirrors_report _ span _ rfl).bind fun _ => mirrors_pure rfl
  · exact (mirrors_report _ span _ rfl).bind fun _ => mirrors_pure rfl

theorem tries_rowText (field : String) (v : Value) :
    Tries id (rowText field v) (rowText field v.erased) := by
  unfold rowText
  rw [Value.text?_relocate, Value.describe_relocate, Value.span_relocate]
  cases v.text? with
  | some text => exact tries_pure rfl
  | none => exact tries_reject rfl _

theorem tries_setPairs (vs : List Value) (r : Record) :
    Tries id (setPairs vs r) (setPairs (vs.map Value.erased) r) := by
  fun_induction setPairs vs r with
  | case1 key value rest r h =>
    simp only [List.map_cons, setPairs, Value.key?_relocate, h, Value.describe_relocate,
      Value.span_relocate]
    exact tries_reject rfl _
  | case2 key value rest r word h ih =>
    simp only [List.map_cons, setPairs, Value.key?_relocate, h, Value.span_relocate]
    refine (mirrors_fieldValue word value).lift.bind fun found => ?_
    exact (mirrors_setField word found key.span r).lift.bind ih
  | case3 vs r h =>
    have hmap : setPairs (vs.map Value.erased) r = pure r := by
      cases vs with
      | nil => rfl
      | cons v vs =>
        cases vs with
        | nil => rfl
        | cons w vs => exact absurd rfl (h v w vs)
    rw [hmap]
    exact tries_pure rfl

theorem tries_pairFields (vs : List Value) (span : Span) (r : Record) :
    Tries id (pairFields vs span r) (pairFields (vs.map Value.erased) .nowhere r) := by
  unfold pairFields
  rw [List.length_map]
  refine Tries.ite (fun _ => ?_) fun _ => tries_setPairs vs r
  have hspan : ((vs.map Value.erased).getLast?.map Value.span).getD .nowhere = .nowhere := by
    rw [List.getLast?_map]
    cases vs.getLast? with
    | none => rfl
    | some v => exact v.span_relocate _
  rw [hspan]
  exact tries_reject rfl _

theorem mirrors_unknownKeyword (language : String) (s : Statement) :
    Mirrors id (unknownKeyword language s) (unknownKeyword language s.erased) := by
  unfold unknownKeyword
  rw [Statement.keyword?_relocate, Statement.isQuoted_relocate, Statement.describe_relocate,
    Statement.span_relocate]
  exact mirrors_report _ _ _ rfl

/-- Giving up over a statement that the language does not know. -/
theorem tries_unknownKeyword {α : Type} {f : α → α} (language : String) (s : Statement) :
    Tries f (do unknownKeyword language s; failure) (do unknownKeyword language s.erased; failure) := by
  unfold unknownKeyword
  rw [Statement.keyword?_relocate, Statement.isQuoted_relocate, Statement.describe_relocate,
    Statement.span_relocate]
  refine tries_reject ?_ s.span
  cases s.keyword? <;> rfl

end CompileM

/-! ## Relationships -/

section

open CompileM

theorem strengthFirst_erased (vs : List Value) : strengthFirst (vs.map Value.erased) =
    ((strengthFirst vs).1, (strengthFirst vs).2.map Value.erased) := by
  cases vs with
  | nil => rfl
  | cons v vs => cases v <;> rfl

/-- Ends that are required are both looked up, whatever comes of the first. -/
theorem run_relationshipEnds (source target : Value) : (relationshipEnds true source target).run = do
    let first ← (requiredReference source).run
    let second ← (requiredReference target).run
    return first.bind fun a => second.map (Prod.mk a) := by
  simp only [relationshipEnds, if_true, OptionT.run_bind, OptionT.run_lift, Option.elimM,
    bind_assoc, pure_bind, Option.elim_some]
  congr 1
  funext first
  congr 1
  funext second
  cases first <;> cases second <;> rfl

theorem tries_relationshipEnds (required : Bool) (source target : Value) :
    Tries id (relationshipEnds required source target)
      (relationshipEnds required source.erased target.erased) := by
  cases required with
  | false =>
    refine (mirrors_reference source).lift.bind fun first => ?_
    exact (mirrors_reference target).lift.bind fun second => tries_pure rfl
  | true =>
    intro s
    obtain ⟨first, s', new, h₁, h₁', e₁⟩ := tries_requiredReference source s
    obtain ⟨second, s'', more, h₂, h₂', e₂⟩ := tries_requiredReference target s'
    rw [Option.map_id, id] at h₁' h₂'
    refine ⟨first.bind fun a => second.map (Prod.mk a), s'', new ++ more, ?_, ?_, ?_⟩
    · rw [run_relationshipEnds, ← List.append_nil (new ++ more), List.append_assoc]
      exact h₁.bind (h₂.bind (runs_pure _ _))
    · rw [run_relationshipEnds, Option.map_id, List.map_append, ← List.append_nil (_ ++ _),
        List.append_assoc]
      exact h₁'.bind (h₂'.bind (runs_pure _ _))
    · intro hnone
      cases first with
      | none =>
        obtain ⟨d, hd, he⟩ := e₁ rfl
        exact ⟨d, List.mem_append_left _ hd, he⟩
      | some a =>
        obtain ⟨d, hd, he⟩ := e₂ (by simpa using hnone)
        exact ⟨d, List.mem_append_right _ hd, he⟩

theorem tries_labelAlias (label : Option Value) :
    Tries id (labelAlias label) (labelAlias (label.map Value.erased)) := by
  cases label with
  | none => exact tries_pure rfl
  | some label =>
    exact (tries_rowText "as" label).bind fun name => (mirrors_aliasField (some name)).lift

theorem Statement.tries_relationship (required : Bool) (key : String) (label : Option Value)
    (kind source target : Value) (values : List Value) (span : Span) :
    Tries id ((Statement.rel key label kind source target values span).relationship required)
      ((Statement.rel key label kind source target values span).erased.relationship required) := by
  refine (tries_rowText "kind" kind).bind fun kind => ?_
  refine (tries_relationshipEnds required source target).bind fun ends => ?_
  rw [strengthFirst_erased]
  refine (tries_labelAlias label).bind fun bound => ?_
  exact tries_pairFields _ span _

end

/-! ## Arguments -/

namespace Args

open CompileM

def relocate (g : Span → Span) (a : Args) : Args := ⟨a.word, g a.span, a.rest.map (·.relocate g)⟩

abbrev erased (a : Args) : Args := a.relocate fun _ => .nowhere

def erasing {α : Type} (f : α → α) (p : α × Args) : α × Args := (f p.1, p.2.erased)

section
variable (g : Span → Span)

@[simp] theorem of_relocate (s : Statement) : Args.of (s.relocate g) = (Args.of s).relocate g := by
  simp only [Args.of, relocate, Statement.keyword_relocate, Statement.span_relocate,
    Statement.positional_relocate]

theorem marker_relocate (a : Args) (word : String) :
    (a.relocate g).marker word = ((a.marker word).1, (a.marker word).2.relocate g) := by
  rcases a with ⟨w, span, _ | ⟨v, rest⟩⟩
  · rfl
  · simp only [relocate, List.map_cons, marker, Value.isWord_relocate]
    cases v.isWord word <;> rfl

theorem text?_relocate (a : Args) : (a.relocate g).text? = (a.text?.1, a.text?.2.relocate g) := by
  rcases a with ⟨w, span, _ | ⟨v, rest⟩⟩
  · rfl
  · simp only [relocate, List.map_cons, text?, List.head?_cons, Option.bind_some, Value.text?_relocate]
    cases v.text? <;> rfl

theorem value?_relocate (a : Args) :
    (a.relocate g).value? = (a.value?.1.map (·.relocate g), a.value?.2.relocate g) := by
  rcases a with ⟨w, span, _ | ⟨v, rest⟩⟩ <;> simp [value?, relocate]

theorem flat_relocate (a : Args) : (a.relocate g).flat = a.flat.map (·.relocate g) := by
  simp only [flat, relocate, List.flatMap_map, List.map_flatMap]
  congr 1
  funext v
  cases v with
  | array items span => exact Value.relocateAll_eq_map g items
  | _ => rfl

@[simp] theorem isEmpty_rest_relocate (a : Args) : (a.relocate g).rest.isEmpty = a.rest.isEmpty :=
  List.isEmpty_map

end

theorem tries_value (a : Args) (what : String) :
    Tries (erasing Value.erased) (a.value what) (a.erased.value what) := by
  rcases a with ⟨w, span, _ | ⟨v, rest⟩⟩
  · exact tries_reject rfl span
  · exact tries_pure rfl

theorem tries_text (a : Args) (what : String) :
    Tries (erasing id) (a.text what) (a.erased.text what) := by
  refine (a.tries_value what).bind fun ⟨v, a⟩ => ?_
  simp only [erasing, Value.text?_relocate, Value.describe_relocate, Value.span_relocate]
  cases v.text? with
  | some text => exact tries_pure rfl
  | none => exact tries_reject rfl _

theorem tries_number (a : Args) (what : String) :
    Tries (erasing id) (a.number what) (a.erased.number what) := by
  refine (a.tries_value what).bind fun ⟨v, a⟩ => ?_
  simp only [erasing, Value.number?_relocate, Value.describe_relocate, Value.span_relocate]
  cases v.number? with
  | some n => exact tries_pure rfl
  | none => exact tries_reject rfl _

theorem tries_finish (a : Args) : Tries id a.finish a.erased.finish := by
  rcases a with ⟨w, span, _ | ⟨v, rest⟩⟩
  · exact tries_pure rfl
  · simp only [finish, relocate, List.map_cons, Value.describe_relocate, Value.span_relocate]
    exact tries_reject rfl _

end Args

section

open CompileM

theorem tries_boundFields (comparison : Comparator × Number × Option Number) (span : Span) :
    Tries id (boundFields comparison span) (boundFields comparison .nowhere) := by
  obtain ⟨comparator, n, upper⟩ := comparison
  refine Tries.ite (fun _ => tries_reject rfl _) fun _ => ?_
  cases comparator with
  | ge | le | eq => exact tries_pure rfl
  | gt | lt => exact tries_reject rfl _

end

end Worldbook
