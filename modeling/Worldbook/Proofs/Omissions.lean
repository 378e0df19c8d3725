import Mathlib.Data.List.Forall2
import Worldbook.Proofs.Items
import Worldbook.Proofs.Merging

/-!
# Nothing is left out in silence

An attempt gives up only over an error that it reports. So where no error is reported every
statement of a list has its entry, and every declaration of a text its record.
-/

namespace Worldbook

open CompileM

section
variable {α β : Type}

/-- An attempt that gives up has added an error to the reports. -/
def FailsLoudly (m : Attempt α) : Prop :=
  ∀ c c' : Context, m.run.run c = (none, c') →
    ∃ new, c'.diagnostics = c.diagnostics ++ new ∧ ∃ d ∈ new, d.isError = true

theorem Tries.failsLoudly {f : α → α} {m m' : Attempt α} (h : Tries f m m') : FailsLoudly m := by
  rintro ⟨s, ds⟩ c' hrun
  obtain ⟨r, s', new, hm, -, herror⟩ := h s
  rw [hm ds] at hrun
  obtain ⟨rfl, rfl⟩ := Prod.mk.inj hrun
  exact ⟨new, rfl, herror rfl⟩

/-- Every element gives its result in order, each from where the one before it stopped. -/
inductive EachGives (attempt : α → Attempt β) : Context → List α → List β → Context → Prop
  | nil (c : Context) : EachGives attempt c [] [] c
  | cons {c c' c'' : Context} {x : α} {y : β} {xs : List α} {ys : List β}
      (first : (attempt x).run.run c = (some y, c')) (more : EachGives attempt c' xs ys c'') :
      EachGives attempt c (x :: xs) (y :: ys) c''

/-- The list holds the result of each attempt, unless an error is reported. -/
def CollectsAll (list : CompileM (List β)) (attempt : α → Attempt β) (xs : List α) : Prop :=
  ∀ c : Context, ∃ ys new, ∃ c' : Context, list.run c = (ys, c') ∧
    c'.diagnostics = c.diagnostics ++ new ∧
    ((∀ d ∈ new, d.isError = false) → EachGives attempt c xs ys c')

theorem collectsAll {attempt : α → Attempt β} {xs : List α}
    (h : ∀ x ∈ xs, ∃ m, Tries id (attempt x) m) : CollectsAll (collect attempt xs) attempt xs := by
  induction xs with
  | nil => exact fun c => ⟨[], [], c, rfl, (List.append_nil _).symm, fun _ => .nil c⟩
  | cons x xs ih =>
    rintro ⟨s, ds⟩
    obtain ⟨m, hm⟩ := h x (List.mem_cons_self ..)
    obtain ⟨r, s', new, hx, -, herror⟩ := hm s
    obtain ⟨ys, more, c', hxs, hds, hall⟩ :=
      ih (fun y hy => h y (List.mem_cons_of_mem _ hy)) ⟨s', ds ++ new⟩
    refine ⟨r.toList ++ ys, new ++ more, c', ?_, ?_, fun hnone => ?_⟩
    · rw [collect, StateT.run_bind, hx ds]
      exact congrArg (fun p => (r.toList ++ p.1, p.2)) hxs
    · rw [hds, List.append_assoc]
    · have hmore := hall fun d hd => hnone d (List.mem_append_right _ hd)
      cases r with
      | none =>
        obtain ⟨d, hd, he⟩ := herror rfl
        rw [hnone d (List.mem_append_left _ hd)] at he
        cases he
      | some y => exact .cons (hx ds) hmore

theorem collect_map {γ : Type} (attempt : α → Attempt β) (f : γ → α) (xs : List γ) :
    collect attempt (xs.map f) = collect (attempt ∘ f) xs := by
  induction xs with
  | nil => rfl
  | cons x xs ih => rw [List.map_cons, collect, collect, ih]; rfl

end

theorem Statement.children_eq_map (ss : List Statement) :
    Statement.children ss = ss.map fun s => (s, s.nested) := by
  induction ss with
  | nil => rfl
  | cons s ss ih => rw [Statement.children, ih, List.map_cons]

/-- The list of a language, each of whose statements gives up only over an error. -/
theorem collectsAll_children {attempt : Statement → Nested → Attempt Json}
    (h : ∀ s {n n' : Nested}, n.Mirrored n' → Tries id (attempt s n) (attempt s.erased n'))
    (body : List Statement) :
    CollectsAll (collect (fun c : Child => attempt c.1 c.2) (Statement.children body))
      (fun s => attempt s s.nested) body := by
  rw [Statement.children_eq_map, collect_map]
  exact collectsAll fun s _ => ⟨_, h s s.mirrored_nested⟩

/-! ## The records of a text -/

namespace Item

def alone (i : Item) : Option Record × List Diagnostic :=
  let out := i.compile.run ⟨.empty, []⟩
  (out.1, out.2.diagnostics)

def entry? (i : Item) : Option Entry :=
  i.alone.1.map fun record => ⟨i.collection, record, i.statement.span⟩

theorem runs_record {i : Item} (h : i.Fits) : ∃ s', Runs i.record.run .empty i.alone.1 s' i.alone.2 ∧
    (i.alone.1 = none → ∃ d ∈ i.alone.2, d.isError = true) := by
  obtain ⟨r, s', new, hrun, -, herror⟩ := tries_record h .empty
  have halone : i.alone = (r, new) := by
    have hcompile : i.compile.run ⟨.empty, []⟩ = (r, ⟨s', [] ++ new⟩) := hrun []
    rw [alone, hcompile]
    rfl
  rw [halone]
  exact ⟨s', hrun, herror⟩

/-- An item sees no binding and no report of another: it does what it does by itself. -/
theorem runs_compile {i : Item} (h : i.Fits) (s : Scope) :
    ∃ s', Runs i.compile s i.alone.1 s' i.alone.2 ∧
    (i.alone.1 = none → ∃ d ∈ i.alone.2, d.isError = true) := by
  obtain ⟨s', hrun, herror⟩ := runs_record h
  exact ⟨s', fun ds => hrun ds, herror⟩

end Item

open Entry Compilation in
/-- The entries of items are those of each item by itself, less the repeated
ones; so are the reports, each repeated entry being reported. -/
theorem runs_compileItems {seen : List Collection} {before : List Entry} (hseen : Fills seen before)
    (items : List Item) (h : ∀ i ∈ items, i.Fits) (s : Scope) : ∃ s' new,
    Runs (compileItems seen items) s (firstsAfter before (items.filterMap Item.entry?)) s' new ∧
      new.Perm (items.flatMap (·.alone.2) ++ (repeatsAfter before (items.filterMap Item.entry?)).map
        duplicate) := by
  -- A repeated entry is reported among the reports of the items, but stands behind them all in the
  -- statement: the order differs, and only that.
  induction items generalizing seen before s with
  | nil => exact ⟨s, [], runs_pure _ _, .nil⟩
  | cons i items ih =>
    obtain ⟨s', hi, -⟩ := Item.runs_compile (h i (List.mem_cons_self ..)) s
    have hitems {seen : List Collection} {before : List Entry} (hseen : Fills seen before) :=
      ih hseen (fun j hj => h j (List.mem_cons_of_mem _ hj)) s'
    cases hr : i.alone.1 with
    | none =>
      obtain ⟨s'', new, hrun, hperm⟩ := hitems hseen
      have hentry : i.entry? = none := by rw [Item.entry?, hr]; rfl
      rw [hr] at hi
      refine ⟨s'', i.alone.2 ++ new, ?_, ?_⟩
      · rw [List.filterMap_cons_none hentry]
        exact hi.bind hrun
      · rw [List.filterMap_cons_none hentry, List.flatMap_cons, List.append_assoc]
        exact hperm.append_left _
    | some record =>
      let e : Entry := ⟨i.collection, record, i.statement.span⟩
      have hentry : i.entry? = some e := by rw [Item.entry?, hr]; rfl
      rw [hr] at hi
      rw [List.filterMap_cons_some hentry, firstsAfter_cons, repeatsAfter_cons, List.flatMap_cons]
      cases hl : i.collection.isList with
      | true =>
        obtain ⟨s'', new, hrun, hperm⟩ := hitems (hseen.of_isList (e := e) hl)
        have hrep : repeats before e = false := by
          simp only [repeats, e, hl, Bool.not_true, Bool.false_and]
        refine ⟨s'', i.alone.2 ++ (new ++ []), hi.bind ?_, ?_⟩
        · simp only [hl, if_true, hrep]
          exact hrun.bind (runs_pure _ _)
        · rw [hrep, List.append_nil, List.append_assoc]
          exact hperm.append_left _
      | false =>
        cases hb : before.any (·.collection == i.collection) with
        | true =>
          obtain ⟨s'', new, hrun, hperm⟩ := hitems (hseen.of_repeat (e := e) hb)
          have hrep : repeats before e = true := by
            simp only [repeats, e, hl, hb, Bool.not_false, Bool.true_and]
          refine ⟨s'', i.alone.2 ++ ([e.duplicate] ++ new), hi.bind ?_, ?_⟩
          · simp only [hl, hseen _ hl, hb, if_true, Bool.false_eq_true, if_false, hrep]
            exact (runs_report _ _ _).bind hrun
          · rw [hrep, if_pos rfl, List.map_append, List.append_assoc]
            refine .append_left _ ((hperm.cons _).trans ?_)
            exact List.perm_middle.symm
        | false =>
          obtain ⟨s'', new, hrun, hperm⟩ := hitems (hseen.cons e)
          have hrep : repeats before e = false := by simp only [repeats, e, hb, Bool.and_false]
          refine ⟨s'', i.alone.2 ++ (new ++ []), hi.bind ?_, ?_⟩
          · simp only [hl, hseen _ hl, hb, Bool.false_eq_true, if_false, hrep]
            exact hrun.bind (runs_pure _ _)
          · rw [hrep, List.append_nil, List.append_assoc]
            exact hperm.append_left _

def Item.entries (ss : List Statement) : List Entry := (Item.items ss).filterMap Item.entry?

/-- All that is reported of a text: statements of no collection, problems of
each item, repeated entries, and numbers out of range. -/
def Item.allReports (ss : List Statement) : List Diagnostic :=
  Item.reports ss ++ (Item.items ss).flatMap (·.alone.2) ++
    (Entry.repeatsAfter [] (Item.entries ss)).map Entry.duplicate ++
    (Statement.overflowsAll ss).map Problem.numberOutOfRange.reported

theorem Compilation.ofStatements_entries (ss : List Statement) :
    (ofStatements ss).entries = Entry.firstsAfter [] (Item.entries ss) ∧
      (ofStatements ss).diagnostics.Perm (Item.allReports ss) := by
  obtain ⟨s, new, hrun, hperm⟩ :=
    runs_compileItems fills_nil (Item.items ss) (fun _ => Item.fits_of_mem_items) .empty
  rw [ofStatements, hrun, Item.allReports, List.append_assoc (Item.reports ss)]
  exact ⟨rfl, (hperm.append_left _).append_right _⟩

namespace Item

/-- The statements that stand for records: those outside containers, and the
contents of containers. -/
def declared (ss : List Statement) : List Statement :=
  ss.flatMap fun s =>
    match containerOf? s, s with
    | some _, .block _ _ _ body _ => body
    | _, _ => [s]

theorem isError_of_mem_reports {ss : List Statement} {d : Diagnostic} (h : d ∈ reports ss) :
    d.isError = true := by
  obtain ⟨o, ho, hd⟩ := List.mem_filterMap.1 h
  obtain ⟨s, -, hs⟩ := List.mem_flatMap.1 ho
  cases o with
  | ok i => cases hd
  | error d' =>
    cases hd
    cases comesTo_of_mem_outcomes hs with
    | unknown =>
      unfold unknown
      cases s.keyword? <;> rfl
    | label => rfl
    | foreign => rfl

theorem contents_eq_map {c : Collection} {container : String} {body : List Statement}
    (h : ∀ d, .error d ∉ contents c container body) :
    ∃ is : List Item, contents c container body = is.map .ok ∧ is.map Item.statement = body := by
  induction body with
  | nil => exact ⟨[], rfl, rfl⟩
  | cons s body ih =>
    rw [contents, List.map_cons] at h ⊢
    obtain ⟨is, his, hbody⟩ := ih fun d hd => h d (List.mem_cons_of_mem _ hd)
    cases hs : inContainer? c s with
    | none =>
      simp only [hs] at h
      exact (h _ (List.mem_cons_self ..)).elim
    | some i =>
      refine ⟨i :: is, ?_, ?_⟩
      · simp only [List.map_cons, ← his]
        rfl
      · rw [List.map_cons, hbody, (fits_of_inContainer? hs).2]

theorem outcomes_eq_map {s : Statement} (h : ∀ d, .error d ∉ outcomes s) :
    ∃ is : List Item, outcomes s = is.map .ok ∧ is.map Item.statement = declared [s] := by
  rw [declared, List.flatMap_singleton]
  cases hc : containerOf? s with
  | none =>
    rw [outcomes_plain hc] at h ⊢
    cases hs : (if s.isQuoted then none else ofStatement? s) with
    | none =>
      simp only [hs] at h
      exact (h _ (List.mem_singleton_self _)).elim
    | some i =>
      refine ⟨[i], rfl, ?_⟩
      split at hs
      · cases hs
      · rw [List.map_singleton, (fits_of_ofStatement? hs).2]
  | some c =>
    obtain ⟨name, labels, body, span, rfl⟩ := containerOf?_eq_some hc
    rw [outcomes_container hc] at h ⊢
    cases labels with
    | nil => exact contents_eq_map h
    | cons l labels => exact (h _ (List.mem_append_left _ (List.mem_singleton_self _))).elim

/-- Where no statement is refused, every declared statement is an item. -/
theorem statements_items {ss : List Statement} (h : reports ss = []) :
    (items ss).map Item.statement = declared ss := by
  induction ss with
  | nil => rfl
  | cons s ss ih =>
    rw [reports, List.flatMap_cons, List.filterMap_append, List.append_eq_nil_iff] at h
    have hs : ∀ d, .error d ∉ outcomes s := by
      intro d hd
      have hnone := List.filterMap_eq_nil_iff.1 h.1 _ hd
      cases hnone
    obtain ⟨is, his, hdeclared⟩ := outcomes_eq_map hs
    have hitems : items (s :: ss) = is ++ items ss := by
      rw [items, List.flatMap_cons, List.filterMap_append, his, List.filterMap_map]
      congr 1
      exact List.filterMap_some
    rw [hitems, List.map_append, hdeclared, ih h.2]
    simp only [declared, List.flatMap_cons, List.flatMap_nil, List.append_nil]

end Item

theorem forall₂_filterMap {α β : Type} {f : α → Option β} {xs : List α}
    (h : ∀ x ∈ xs, (f x).isSome = true) :
    List.Forall₂ (fun x y => f x = some y) xs (xs.filterMap f) := by
  induction xs with
  | nil => exact .nil
  | cons x xs ih =>
    obtain ⟨y, hy⟩ := Option.isSome_iff_exists.1 (h x (List.mem_cons_self ..))
    rw [List.filterMap_cons_some hy]
    exact .cons hy (ih fun z hz => h z (List.mem_cons_of_mem _ hz))

/-- In a text without errors each item has the entry that it has by itself. -/
theorem Compilation.entries_of_noErrors {ss : List Statement}
    (h : (ofStatements ss).hasErrors = false) : (Item.items ss).map Item.statement = Item.declared ss ∧
      List.Forall₂ (fun i e => i.entry? = some e) (Item.items ss) (ofStatements ss).entries := by
  obtain ⟨hentries, hperm⟩ := ofStatements_entries ss
  have hnone : ∀ d ∈ Item.allReports ss, d.isError = false := by
    intro d hd
    have := List.any_eq_false.1 h d (hperm.mem_iff.2 hd)
    simpa using this
  simp only [Item.allReports, List.mem_append] at hnone
  refine ⟨Item.statements_items (List.eq_nil_iff_forall_not_mem.2 fun d hd => ?_), ?_⟩
  · have := hnone d (.inl (.inl (.inl hd)))
    rw [Item.isError_of_mem_reports hd] at this
    cases this
  · have hrepeats : Entry.repeatsAfter [] (Item.entries ss) = [] := by
      refine List.eq_nil_iff_forall_not_mem.2 fun e he => ?_
      have herror : e.duplicate.isError = true := rfl
      rw [hnone _ (.inl (.inr (List.mem_map_of_mem he)))] at herror
      cases herror
    rw [hentries, Entry.firstsAfter_of_repeatsAfter_eq_nil hrepeats]
    refine forall₂_filterMap fun i hi => ?_
    obtain ⟨s', -, herror⟩ := Item.runs_compile (Item.fits_of_mem_items hi) .empty
    cases hr : i.alone.1 with
    | some record => rw [Item.entry?, hr]; rfl
    | none =>
      obtain ⟨d, hd, he⟩ := herror hr
      rw [hnone d (.inl (.inl (.inr (List.mem_flatMap.2 ⟨i, hi, hd⟩))))] at he
      cases he

/-- Nothing is left out in silence. A condition, filter, mutation, constraint, step,
relationship or item that gives up has reported an error; a list that reports no error
holds the result of each of its statements; and a text that reports no error has, in
order, the record of each statement outside containers and each statement inside one. -/
theorem compile_omits_nothing :
    (∀ s : Statement, FailsLoudly (Condition.compile s s.nested) ∧
      FailsLoudly (Filter.compile s s.nested) ∧
      FailsLoudly (Mutation.compile s s.nested) ∧ FailsLoudly (Path.constraint s s.nested) ∧
      FailsLoudly (Path.step s s.nested)) ∧
    (∀ required key label kind source target values span,
      FailsLoudly ((Statement.rel key label kind source target values span).relationship required)) ∧
    (∀ ss, ∀ i ∈ Item.items ss, FailsLoudly i.record) ∧
    (∀ body : List Statement,
      CollectsAll (Condition.compileAll (Statement.children body))
        (fun s => Condition.compile s s.nested) body ∧
      CollectsAll (Filter.compileAll (Statement.children body))
        (fun s => Filter.compile s s.nested) body ∧
      CollectsAll (Mutation.compileAll (Statement.children body))
        (fun s => Mutation.compile s s.nested) body ∧
      CollectsAll (Path.constraints (Statement.children body))
        (fun s => Path.constraint s s.nested) body) ∧
    ∀ file text, (compile file text).hasErrors = false → ∃ ss, parse file text = .ok ss ∧
      (Item.items ss).map Item.statement = Item.declared ss ∧
      List.Forall₂ (fun i e => i.collection = e.collection ∧ i.statement.span = e.span ∧
          (i.compile.run ⟨.empty, []⟩).1 = some e.record) (Item.items ss)
            (compile file text).entries := by
  refine ⟨fun s => ?_, fun required key label kind source target values span => ?_, fun ss i hi => ?_,
    fun body => ⟨?_, ?_, ?_, ?_⟩, fun file text h => ?_⟩
  · have hs := s.mirrored_nested
    exact ⟨(Condition.tries_compile s hs).failsLoudly, (Filter.tries_compile s hs).failsLoudly,
      (Mutation.tries_compile s hs).failsLoudly, (Path.tries_constraint s hs).failsLoudly,
      (Path.tries_step s hs).failsLoudly⟩
  · exact (Statement.tries_relationship required key label kind source target values span).failsLoudly
  · exact (Item.tries_record (Item.fits_of_mem_items hi)).failsLoudly
  · exact collectsAll_children Condition.tries_compile body
  · exact collectsAll_children Filter.tries_compile body
  · exact collectsAll_children Mutation.tries_compile body
  · exact collectsAll_children Path.tries_constraint body
  · cases hp : parse file text with
    | error e =>
      rw [compile_of_error hp] at h
      cases h
    | ok ss =>
      have hcompile : compile file text = .ofStatements ss := by rw [compile, hp]
      rw [hcompile] at h ⊢
      obtain ⟨hstatements, hall⟩ := Compilation.entries_of_noErrors h
      refine ⟨ss, rfl, hstatements, hall.imp fun i e hie => ?_⟩
      obtain ⟨record, hrecord, rfl⟩ := Option.map_eq_some_iff.1 hie
      exact ⟨rfl, rfl, hrecord⟩

/-- A line, and a container with two blocks. -/
theorem compile_omits_nothing_tags :
    let text := "culture elves \"Elves\"\n" ++
      "tags do\n  tag sly do category trait end\n  tag bold do category trait end\nend"
    ∃ ss, parse 0 text = .ok ss ∧ (Item.declared ss).length = 3 ∧
      (compile 0 text).entries.map (·.span) = (Item.declared ss).map (·.span) ∧
      (compile 0 text).entries.map (·.collection.key) = ["cultures", "tagRegistry", "tagRegistry"] := by
  intro text
  obtain ⟨-, -, -, -, hcomplete⟩ := compile_omits_nothing
  obtain ⟨ss, hparse, hstatements, hall⟩ := hcomplete 0 text (by decide +kernel)
  have hspans : (Item.items ss).map (·.statement.span) = (compile 0 text).entries.map (·.span) := by
    rw [← List.forall₂_eq_eq_eq, List.forall₂_map_left_iff, List.forall₂_map_right_iff]
    exact hall.imp fun i e hie => hie.2.1
  refine ⟨ss, hparse, ?_, ?_, by decide +kernel⟩
  · rw [← hstatements, List.length_map, hall.length_eq]
    decide +kernel
  · rw [← hspans, ← hstatements, List.map_map]
    rfl

end Worldbook
