import Worldbook.Proofs.Skipping

/-!
# The statements around a skipped one

Where a statement that is skipped has bound nothing, the list without it compiles to the same result
with the same bindings, and to the same reports but for those of the statement.
-/

namespace Worldbook

open CompileM

/-- The list of statements is read as the list without the one in the middle,
but for the reports of that one. -/
def LeftOut {σ : Type} (reading : List Statement → CompileM σ) (pre : List Statement) (t : Statement)
    (post : List Statement) (s : Scope) (new : List Diagnostic) : Prop :=
  ∃ found s' first last, Runs (reading (pre ++ t :: post)) s found s' (first ++ (new ++ last)) ∧
    Runs (reading (pre ++ post)) s found s' (first ++ last)

section
variable {α β σ τ : Type} {pre post : List Statement} {t : Statement} {s s₁ : Scope}
  {new : List Diagnostic}

theorem Runs.collect_append {attempt : α → Attempt β} {xs ys : List α}
    {found more : List β} {s' : Scope} {first last : List Diagnostic}
    (hx : Runs (collect attempt xs) s found s₁ first) (hy : Runs (collect attempt ys) s₁ more s' last) :
    Runs (collect attempt (xs ++ ys)) s (found ++ more) s' (first ++ last) := by
  have happend : collect attempt (xs ++ ys) = do
      let found ← collect attempt xs
      let more ← collect attempt ys
      return found ++ more := by
    clear hx
    induction xs with
    | nil => simp [collect]
    | cons x xs ih =>
      simp only [List.cons_append, collect, ih, bind_assoc, pure_bind, List.append_assoc]
  rw [happend, ← List.append_nil last]
  exact hx.bind (hy.bind (runs_pure _ s'))

theorem leftOut_collect {attempt : Statement → Nested → Attempt β}
    (h : ∀ t : Statement, OnlyAdds (attempt t t.nested)) {xs : List β} {first : List Diagnostic}
    (hpre : Runs (collect (fun (t, n) => attempt t n) (Statement.children pre)) s xs s₁ first)
    (ht : Runs (attempt t t.nested).run s₁ none s₁ new) :
    LeftOut (fun body => collect (fun (t, n) => attempt t n) (Statement.children body)) pre t
    post s new := by
  have hall : ∀ c ∈ Statement.children post, OnlyAdds ((fun (t, n) => attempt t n) c) := by
    intro c hc
    rw [Statement.children_eq_map] at hc
    obtain ⟨t, -, rfl⟩ := List.mem_map.1 hc
    exact h t
  obtain ⟨ys, s', last, hpost⟩ := appends_collect hall s₁
  have hrest : Runs (collect (fun (t, n) => attempt t n) (Statement.children (t :: post))) s₁ ys s'
    (new ++ last) := by
    rw [← List.append_nil last]
    exact ht.bind (hpost.bind (runs_pure ys s'))
  refine ⟨xs ++ ys, s', first, last, ?_, ?_⟩
  · have hall := hpre.collect_append hrest
    rwa [Statement.children_eq_map, Statement.children_eq_map, ← List.map_append,
      ← Statement.children_eq_map] at hall
  · have hall := hpre.collect_append hpost
    rwa [Statement.children_eq_map, Statement.children_eq_map, ← List.map_append,
      ← Statement.children_eq_map] at hall

theorem leftOut_thread {step : Child → σ → CompileM σ}
    (h : ∀ (t : Statement) state, Appends (step (t, t.nested) state)) {init state : σ}
    {first : List Diagnostic} (hpre : Runs (thread step (Statement.children pre) init) s state s₁ first)
    (ht : Runs (step (t, t.nested) state) s₁ state s₁ new) :
    LeftOut (fun body => thread step (Statement.children body) init) pre t post s new := by
  have hall : ∀ c ∈ Statement.children post, ∀ state, Appends (step c state) := by
    intro c hc
    rw [Statement.children_eq_map] at hc
    obtain ⟨t, -, rfl⟩ := List.mem_map.1 hc
    exact h t
  obtain ⟨found, s', last, hpost⟩ := appends_thread hall state s₁
  have happend (rest : List Statement) : thread step (Statement.children (pre ++ rest)) init =
      thread step (Statement.children pre) init >>= thread step (Statement.children rest) := by
    rw [Statement.children_eq_map, List.map_append, thread_append, ← Statement.children_eq_map,
      ← Statement.children_eq_map]
  refine ⟨found, s', first, last, ?_, ?_⟩
  · dsimp only
    rw [happend]
    exact hpre.bind (ht.bind hpost)
  · dsimp only
    rw [happend]
    exact hpre.bind hpost

theorem LeftOut.bind {reading : List Statement → CompileM σ} {k : σ → CompileM τ}
    (h : LeftOut reading pre t post s new) (hk : ∀ found, Appends (k found)) :
    LeftOut (fun body => reading body >>= k) pre t post s new := by
  obtain ⟨found, s', first, last, hwith, hwithout⟩ := h
  obtain ⟨result, s'', more, hmore⟩ := hk found s'
  refine ⟨result, s'', first, last ++ more, ?_, ?_⟩
  · rw [← List.append_assoc new, ← List.append_assoc first]
    exact hwith.bind hmore
  · rw [← List.append_assoc first]
    exact hwithout.bind hmore

end

namespace Body

/-- A relationship or a creation that is skipped where the record is `r` and
the bindings are `s`. -/
inductive Skipped (r : Record) (s : Scope) (new : List Diagnostic) : Statement → Prop
  | relationship {key : String} {label : Option Value} {kind source target : Value}
      {values : List Value} {span : Span}
      (h : Runs (Statement.relationship false (.rel key label kind source target values span)).run s
        none s new) :
      Skipped r s new (.rel key label kind source target values span)
  | line {labels : List Value} {value : Value} {span : Span} {t : Statement}
      (ht : t = .field "create" false labels value span)
      (h : Runs (creation t t.nested r).run s none s new) : Skipped r s new t
  | block {labels : List Value} {body : List Statement} {span : Span} {t : Statement}
      (ht : t = .block "create" false labels body span)
      (h : Runs (creation t t.nested r).run s none s new) : Skipped r s new t

theorem runs_orElseKeep_none {σ : Type} {m : Attempt σ} {s s' : Scope} {new : List Diagnostic}
    (h : Runs m.run s none s' new) (state : σ) : Runs (orElseKeep m state) s state s' new := by
  rw [← List.append_nil new]
  exact h.bind (runs_pure state s')

theorem Skipped.runs {t : Statement} {r : Record} {s : Scope} {new : List Diagnostic}
    (h : Skipped r s new t) : Runs (part (t, t.nested) r) s r s new := by
  cases h with
  | relationship h =>
    rw [← List.append_nil new]
    exact h.bind (runs_pure r s)
  | line ht h =>
    have hkeep := runs_orElseKeep_none h r
    subst ht
    exact hkeep
  | block ht h =>
    have hkeep := runs_orElseKeep_none h r
    subst ht
    exact hkeep

end Body

namespace Path

theorem runs_part_step {t : Statement} (ht : t.plainKeyword? = some "step") {d : Draft} {s : Scope}
    {new : List Diagnostic} (h : Runs (step t t.nested).run s none s new) :
    Runs (part (t, t.nested) d) s d s new := by
  have hpart : part (t, t.nested) d = do
      let found ← (step t t.nested).run
      return { d with steps := d.steps ++ found.toList } := by simp [part, ht]
  have hsteps : ({ d with steps := d.steps ++ [] } : Draft) = d := by rw [List.append_nil]
  have hnone : Runs (pure { d with steps := d.steps ++ (none : Option Json).toList }) s d s [] := by
    rw [Option.toList_none, hsteps]
    exact runs_pure d s
  rw [hpart, ← List.append_nil new]
  exact h.bind hnone

end Path

/-- A statement that is skipped leaves no trace in the bindings, and the statements around
it compile as if it were not there. Conditions, filters and path steps that give up have
bound nothing; neither has a mutation, a relationship or a creation that gives up, unless it
is one of those that bind a name before the last check of their arguments, or a conditional
that lacks a branch. Where nothing has been bound the list without the statement gives the
same result and the same bindings, and all reports but those of the statement. -/
theorem skipped_statements (pre : List Statement) (t : Statement) (post : List Statement) (s s₁ : Scope)
    (first new : List Diagnostic) :
    (∀ s', Runs (Condition.compile t t.nested).run s none s' new ∨
      Runs (Filter.compile t t.nested).run s none s' new ∨
      Runs (Path.step t t.nested).run s none s' new → s' = s) ∧
    (∀ s', Runs (Mutation.compile t t.nested).run s none s' new → t.Trace s s' ∨
      Mutation.IsPlainConditional t) ∧
    (∀ required s', Runs (t.relationship required).run s none s' new → t.Trace s s') ∧
    (∀ r s', Runs (Body.creation t t.nested r).run s none s' new → t.Trace s s') ∧
    (∀ xs, Runs (Condition.compileAll (Statement.children pre)) s xs s₁ first →
      Runs (Condition.compile t t.nested).run s₁ none s₁ new →
      LeftOut (fun body => Condition.compileAll (Statement.children body)) pre t post s new) ∧
    (∀ xs, Runs (Filter.compileAll (Statement.children pre)) s xs s₁ first →
      Runs (Filter.compile t t.nested).run s₁ none s₁ new →
      LeftOut (fun body => Filter.compileAll (Statement.children body)) pre t post s new) ∧
    (∀ xs, Runs (Mutation.compileAll (Statement.children pre)) s xs s₁ first →
      Runs (Mutation.compile t t.nested).run s₁ none s₁ new →
      LeftOut (fun body => Mutation.compileAll (Statement.children body)) pre t post s new) ∧
    (∀ d block, Runs (thread Path.part (Statement.children pre) ⟨[], []⟩) s d s₁ first →
      t.plainKeyword? = some "step" → Runs (Path.step t t.nested).run s₁ none s₁ new →
      LeftOut (fun body => Path.compile (Statement.children body) block) pre t post s new) ∧
    ∀ r r₁, Runs (Body.fields (Statement.children pre) r) s r₁ s₁ first → Body.Skipped r₁ s₁ new t →
      LeftOut (fun body => Body.fields (Statement.children body) r) pre t post s new := by
  refine ⟨?_, ?_, ?_, ?_, ?_, ?_, ?_, ?_, ?_⟩
  · intro s' h
    rcases h with h | h | h
    · exact (Condition.leaves_compile t t.nested).of_runs h
    · exact (Filter.leaves_compile t t.nested).of_runs h
    · exact (Path.leaves_step t t.nested).of_runs h
  · intro s' h
    exact (Mutation.leaves_compile t t.nested).of_runs h
  · intro required s' h
    exact (t.leaves_relationship required).of_runs h
  · intro r s' h
    exact (Body.leaves_creation t t.nested r).of_runs h
  · intro xs hpre ht
    exact leftOut_collect (fun t => (Condition.tries_compile t t.mirrored_nested).onlyAdds) hpre ht
  · intro xs hpre ht
    exact leftOut_collect (fun t => (Filter.tries_compile t t.mirrored_nested).onlyAdds) hpre ht
  · intro xs hpre ht
    exact leftOut_collect (fun t => (Mutation.tries_compile t t.mirrored_nested).onlyAdds) hpre ht
  · intro d block hpre hstep ht
    have hpart (t : Statement) (d : Path.Draft) :=
      (Path.mirrors_part (t, t.nested) t.mirrored_nested d).appends
    have hparts : LeftOut (fun body => thread Path.part (Statement.children body) ⟨[], []⟩) pre t
      post s new :=
      leftOut_thread hpart hpre (Path.runs_part_step hstep ht)
    refine hparts.bind fun d => ?_
    dsimp only
    split
    · exact (appends_report _ _).bind fun _ => appends_pure _
    · exact appends_pure _
  · intro r r₁ hpre ht
    exact leftOut_thread Body.appends_part hpre ht.runs

/-- The line `change_status ghost dead`, where nothing is bound, in front of
`change_status $hero dead`. -/
theorem skipped_statements_ghost :
    let name (word : String) : Value := .name word .nowhere
    let line (who : String) : Statement :=
      .field "change_status" false [name who] (name "dead") .nowhere
    let unresolved := [(Problem.unresolvedReference "ghost").reported .nowhere]
    Runs (Mutation.compile (line "ghost") (line "ghost").nested).run .empty none .empty unresolved ∧
      LeftOut (fun body => Mutation.compileAll (Statement.children body)) [] (line "ghost")
        [line "$hero"] .empty unresolved := by
  intro name line unresolved
  have hghost : Runs (Mutation.compile (line "ghost") (line "ghost").nested).run .empty none .empty
    unresolved := by
    intro ds
    simp only [line, name]
    rfl
  have hnone : Runs (Mutation.compileAll (Statement.children [])) .empty [] .empty [] :=
    runs_silent fun _ => rfl
  obtain ⟨-, -, -, -, -, -, hleftOut, -⟩ :=
    skipped_statements [] (line "ghost") [line "$hero"] .empty .empty [] unresolved
  exact ⟨hghost, hleftOut [] hnone hghost⟩

end Worldbook
