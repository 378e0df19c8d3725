import Mathlib.Data.List.Forall2
import Worldbook.Proofs.Reports

/-!
# Runs taken apart

`Runs` says what a step does from given bindings. A run of a composed step is taken apart into runs
of its parts, whose reports in a row are those of the whole; so a run without reports has only parts
without reports. This needs of each part that it keeps the reports before it, and every step does.
-/

namespace Worldbook

open CompileM

section
variable {α β σ : Type} {s s' : Scope} {new : List Diagnostic}

theorem Runs.eq {m : CompileM α} {a b : α} {s₁ s₂ : Scope} {new more : List Diagnostic}
    (h : Runs m s a s₁ new) (h' : Runs m s b s₂ more) : a = b ∧ s₁ = s₂ ∧ new = more := by
  obtain ⟨ha, hcontext⟩ := Prod.mk.inj ((h []).symm.trans (h' []))
  obtain ⟨hscope, hnew⟩ := Context.mk.inj hcontext
  exact ⟨ha, hscope, hnew⟩

/-! ## Steps -/

def Appends (m : CompileM α) : Prop := ∀ s, ∃ a s' new, Runs m s a s' new

theorem Mirrors.appends {f : α → α} {m m' : CompileM α} (h : Mirrors f m m') : Appends m := by
  intro s
  obtain ⟨a, s', new, hm, -⟩ := h s
  exact ⟨a, s', new, hm⟩

theorem appends_pure (a : α) : Appends (pure a) := fun s => ⟨a, s, [], runs_pure a s⟩

theorem appends_report (p : Problem) (span : Span) :
    Appends (report p span) := fun s => ⟨(), s, _, runs_report p span s⟩

theorem Appends.bind {m : CompileM α} {k : α → CompileM β} (hm : Appends m) (hk : ∀ a, Appends (k a)) :
    Appends (m >>= k) := by
  intro s
  obtain ⟨a, t, new, ha⟩ := hm s
  obtain ⟨b, t', more, hb⟩ := hk a t
  exact ⟨b, t', new ++ more, ha.bind hb⟩

theorem Runs.split_seq {m : CompileM α} {k : α → CompileM β} (hm : Appends m)
    (hk : ∀ a, Appends (k a)) {b : β} (h : Runs (m >>= k) s b s' new) :
    ∃ a t first more, Runs m s a t first ∧ Runs (k a) t b s' more ∧ new = first ++ more := by
  obtain ⟨a, t, first, ha⟩ := hm s
  obtain ⟨b', t', more, hb⟩ := hk a t
  obtain ⟨rfl, rfl, hnew⟩ := (ha.bind hb).eq h
  exact ⟨a, t, first, more, ha, hb, hnew.symm⟩

/-- Two steps in a row report nothing if neither does. -/
theorem Runs.of_seq {m : CompileM α} {k : α → CompileM β} (hm : Appends m)
    (hk : ∀ a, Appends (k a)) {b : β} (h : Runs (m >>= k) s b s' []) :
    ∃ a t, Runs m s a t [] ∧ Runs (k a) t b s' [] := by
  obtain ⟨a, t, first, more, ha, hb, hnew⟩ := h.split_seq hm hk
  obtain ⟨rfl, rfl⟩ := List.append_eq_nil_iff.1 hnew.symm
  exact ⟨a, t, ha, hb⟩

theorem Runs.split_map {m : CompileM α} (hm : Appends m) {f : α → β} {b : β}
    (h : Runs (do return f (← m)) s b s' new) : ∃ a, Runs m s a s' new ∧ b = f a := by
  obtain ⟨a, t, first, more, ha, hb, hnew⟩ := h.split_seq hm fun a => appends_pure (f a)
  obtain ⟨rfl, rfl, rfl⟩ := (runs_pure (f a) t).eq hb
  rw [List.append_nil] at hnew
  exact ⟨a, hnew ▸ ha, rfl⟩

theorem Runs.of_lift {m : CompileM α} (hm : Appends m) {a : α}
    (h : Runs (liftM m : Attempt α).run s (some a) s' new) : Runs m s a s' new := by
  obtain ⟨b, t, more, hb⟩ := hm s
  obtain ⟨hab, rfl, rfl⟩ := hb.lift.eq h
  cases hab
  exact hb

theorem not_silent_report {p : Problem} {span : Span} {k : Unit → CompileM β} {b : β}
    (h : Runs (report p span >>= k) s b s' []) (hk : Appends (k ())) : False := by
  obtain ⟨_, t, hreport, -⟩ := h.of_seq (appends_report p span) fun _ => hk
  cases ((runs_report p span s).eq hreport).2.2

/-! ## Attempts -/

def OnlyAdds (m : Attempt α) : Prop := ∀ s, ∃ r s' new, Runs m.run s r s' new

theorem Tries.onlyAdds {f : α → α} {m m' : Attempt α} (h : Tries f m m') : OnlyAdds m := h.run.appends

theorem Appends.lift {m : CompileM α} (h : Appends m) : OnlyAdds (liftM m : Attempt α) := by
  intro s
  obtain ⟨a, s', new, hm⟩ := h s
  exact ⟨some a, s', new, hm.lift⟩

theorem onlyAdds_pure (a : α) : OnlyAdds (pure a) := appends_pure (some a)

theorem Runs.of_pure {a b : α} (h : Runs (pure (some a)) s (some b) s' new) : a = b := by
  simpa using ((runs_pure (some a) s).eq h).1

theorem not_runs_reject {p : Problem} {span : Span} {a : α} :
    ¬ Runs (reject p span : Attempt α).run s (some a) s' new := by
  intro h
  have hnone : Runs (reject p span : Attempt α).run s none s [p.reported span] := fun _ => rfl
  cases (hnone.eq h).1

/-- What follows an attempt is skipped where the attempt gives up. -/
theorem appends_elim {k : α → Attempt β} (hk : ∀ a, OnlyAdds (k a)) (r : Option α) :
    Appends (r.elim (pure none) fun a => (k a).run) := by
  cases r with
  | none => exact appends_pure none
  | some a => exact hk a

theorem OnlyAdds.bind {m : Attempt α} {k : α → Attempt β} (hm : OnlyAdds m) (hk : ∀ a, OnlyAdds (k a)) :
    OnlyAdds (m >>= k) := by
  have hall : Appends (m >>= k).run := by
    rw [OptionT.run_bind]
    exact Appends.bind hm (appends_elim hk)
  exact hall

/-- What two attempts in a row report is what the first reports, and then the second. -/
theorem Runs.split {m : Attempt α} {k : α → Attempt β} (hm : OnlyAdds m)
    (hk : ∀ a, OnlyAdds (k a)) {b : β} (h : Runs (m >>= k).run s (some b) s' new) :
    ∃ a t first more, Runs m.run s (some a) t first ∧ Runs (k a).run t (some b) s' more ∧
    new = first ++ more := by
  rw [OptionT.run_bind] at h
  obtain ⟨r, t, first, more, hr, hrest, hnew⟩ := Runs.split_seq hm (appends_elim hk) h
  cases r with
  | none => cases ((runs_pure none t).eq hrest).1
  | some a => exact ⟨a, t, first, more, hr, hrest, hnew⟩

/-- Where an attempt reports nothing, neither of its two parts does. -/
theorem Runs.of_bind {m : Attempt α} {k : α → Attempt β} (hm : OnlyAdds m)
    (hk : ∀ a, OnlyAdds (k a)) {b : β} (h : Runs (m >>= k).run s (some b) s' []) :
    ∃ a t, Runs m.run s (some a) t [] ∧ Runs (k a).run t (some b) s' [] := by
  obtain ⟨a, t, first, more, hfirst, hmore, hnew⟩ := h.split hm hk
  obtain ⟨rfl, rfl⟩ := List.append_eq_nil_iff.1 hnew.symm
  exact ⟨a, t, hfirst, hmore⟩

/-- An attempt that gives up reports an error. -/
theorem Tries.error_of_runs {f : α → α} {m m' : Attempt α} (hm : Tries f m m')
    (h : Runs m.run s none s' new) : ∃ d ∈ new, d.isError = true := by
  obtain ⟨r, t, more, hr, -, herror⟩ := hm s
  obtain ⟨rfl, -, rfl⟩ := hr.eq h
  exact herror rfl

theorem Tries.exists_of_runs {f : α → α} {m m' : Attempt α} (hm : Tries f m m') {r : Option α}
    (h : Runs m.run s r s' []) : ∃ a, r = some a := by
  cases r with
  | none =>
    obtain ⟨d, hd, -⟩ := hm.error_of_runs h
    cases hd
  | some a => exact ⟨a, rfl⟩

theorem Runs.split_orElseKeep {m : Attempt σ} (hm : OnlyAdds m) {state state' : σ}
    (h : Runs (orElseKeep m state) s state' s' new) :
    (Runs m.run s none s' new ∧ state' = state) ∨ Runs m.run s (some state') s' new := by
  obtain ⟨r, hr, rfl⟩ := h.split_map hm
  cases r with
  | none => exact .inl ⟨hr, rfl⟩
  | some a => exact .inr hr

theorem Tries.of_runs_orElseKeep {f : σ → σ} {m m' : Attempt σ} (hm : Tries f m m') {state state' : σ}
    (h : Runs (orElseKeep m state) s state' s' []) : Runs m.run s (some state') s' [] := by
  rcases h.split_orElseKeep hm.onlyAdds with ⟨hnone, -⟩ | h
  · obtain ⟨_, hsome⟩ := hm.exists_of_runs hnone
    cases hsome
  · exact h

/-! ## Lists of steps -/

theorem appends_collect {attempt : α → Attempt β} {xs : List α} (h : ∀ x ∈ xs, OnlyAdds (attempt x)) :
    Appends (collect attempt xs) := by
  induction xs with
  | nil => exact appends_pure []
  | cons x xs ih =>
    have hxs := ih fun y hy => h y (List.mem_cons_of_mem _ hy)
    exact Appends.bind (h x (List.mem_cons_self ..)) fun r => hxs.bind fun more => appends_pure _

/-- A list that is collected without a report has a result for each element. -/
theorem forall₂_of_runs_collect {attempt : α → Attempt β} {xs : List α} {ys : List β} {P : α → β → Prop}
    (h : ∀ x ∈ xs, (∃ m, Tries id (attempt x) m) ∧ ∀ {y t t'}, Runs (attempt x).run t (some y) t' [] →
      P x y)
    (hrun : Runs (collect attempt xs) s ys s' []) : List.Forall₂ P xs ys := by
  induction xs generalizing s ys with
  | nil =>
    obtain ⟨rfl, -, -⟩ := (runs_pure [] s).eq hrun
    exact .nil
  | cons x xs ih =>
    obtain ⟨⟨m, hm⟩, hx⟩ := h x (List.mem_cons_self ..)
    have hmore := fun y hy => h y (List.mem_cons_of_mem _ hy)
    have hxs := appends_collect fun y hy => (hmore y hy).1.choose_spec.onlyAdds
    obtain ⟨r, t, hr, hrest⟩ := hrun.of_seq hm.run.appends fun r => hxs.bind fun more =>
      appends_pure (r.toList ++ more)
    obtain ⟨more, hys, rfl⟩ := hrest.split_map hxs
    obtain ⟨y, rfl⟩ := hm.exists_of_runs hr
    exact .cons (hx hr) (ih hmore hys)

theorem appends_thread {step : α → σ → CompileM σ} {xs : List α}
    (h : ∀ x ∈ xs, ∀ state, Appends (step x state)) (state : σ) : Appends (thread step xs state) := by
  induction xs generalizing state with
  | nil => exact appends_pure state
  | cons x xs ih =>
    exact (h x (List.mem_cons_self ..) state).bind (ih fun y hy => h y (List.mem_cons_of_mem _ hy))

/-- Where each step that reports nothing only goes up in a preorder, so do
all of them in a row, and what each of them reaches lies below the end. -/
theorem Runs.of_thread {step : α → σ → CompileM σ} {xs : List α} {R : σ → σ → Prop}
    (hrefl : ∀ state, R state state) (htrans : ∀ {a b c}, R a b → R b c → R a c)
    (h : ∀ x ∈ xs, ∀ state, Appends (step x state) ∧
      ∀ {state' t t'}, Runs (step x state) t state' t' [] → R state state')
    {state state' : σ} (hrun : Runs (thread step xs state) s state' s' []) :
    R state state' ∧ ∀ x ∈ xs, ∃ before after t t', Runs (step x before) t after t' [] ∧
    R after state' := by
  induction xs generalizing s state with
  | nil =>
    obtain ⟨rfl, -, -⟩ := (runs_pure state s).eq hrun
    exact ⟨hrefl state, fun x hx => absurd hx List.not_mem_nil⟩
  | cons x xs ih =>
    have hmore := fun y hy => h y (List.mem_cons_of_mem _ hy)
    obtain ⟨happends, hstep⟩ := h x (List.mem_cons_self ..) state
    obtain ⟨mid, t, hx, hrest⟩ :=
      hrun.of_seq happends (appends_thread fun y hy mid => (hmore y hy mid).1)
    obtain ⟨hup, hall⟩ := ih hmore hrest
    refine ⟨htrans (hstep hx) hup, fun y hy => ?_⟩
    rcases List.mem_cons.1 hy with rfl | hy
    · exact ⟨state, mid, s, t, hx, hup⟩
    · exact hall y hy

end

end Worldbook
