import Worldbook.Proofs.Languages

/-!
# Paths

A path assertion is a check, the steps of the path, and perhaps a count and constraints on its end.
The steps are read in order, and the path is put behind the other fields.
-/

namespace Worldbook.Path

open Written CompileM

/-! ## Steps -/

def stepKeys : List String := ["via", "direction", "targetKind", "targetSubtype", "targetStatus", "as"]

def stepWords? (o : Record) : Option (List String) := do
  let bound ← aliasWord? o
  let kind ← text? o "via"
  let direction ← text? o "direction"
  let targetKind ← text? o "targetKind"
  let targetSubtype ← text? o "targetSubtype"
  let status ← optionalText? o "targetStatus"
  return bound ++ ["via", string kind, string direction, string targetKind, string targetSubtype] ++
    (status.map string).toList

/-- A step without filters is a line, one with filters a block. -/
theorem step?_eq (o : Record) (forms : String → Forms) : step? o forms =
    if o.hasOnly (stepKeys ++ ["filters"]) then (stepWords? o).bind fun ws =>
      if o.has "filters" then (forms "filters").filters.map fun fs => .block ("step" :: ws)
      [.block ["filters"] fs] else some (.line ("step" :: ws))
    else none := by
  have hkeys : o.hasOnly ["via", "direction", "targetKind", "targetSubtype", "targetStatus",
    "as", "filters"] =
      o.hasOnly (stepKeys ++ ["filters"]) := rfl
  rw [step?, hkeys]
  cases o.hasOnly (stepKeys ++ ["filters"])
  · rfl
  · cases o.has "filters" <;> simp [stepWords?, Option.bind_assoc, Option.map_eq_bind]

/-- The alias in front of a step is told from the word behind it. -/
theorem leadingAlias_of {bound : Option String} (ha : ∀ a ∈ bound, isBinding a.toList = true)
    {Rs : List (Value → Prop)} (word : String) (span : Span) {vs : List Value}
    (h : Meets (bound.toList.map (fun a v => v.Names a) ++ (·.Names "via") :: Rs) vs) :
    ∃ us, Meets ((·.Names "via") :: Rs) us ∧ leadingAlias ⟨word, span, vs⟩ =
      (bound, ⟨word, span, us⟩) := by
  cases bound with
  | none =>
    refine ⟨vs, h, ?_⟩
    rcases h with _ | ⟨hv, h⟩
    obtain ⟨_, rfl⟩ := hv
    simp only [leadingAlias]
    rfl
  | some a =>
    rcases h with _ | ⟨hv, h⟩
    obtain ⟨_, rfl⟩ := hv
    exact ⟨_, h, by simp only [leadingAlias, hasSigil_of_isBinding (ha a rfl), if_true]⟩

theorem step_of {o : Record} {ws : List String} (h : stepWords? o = some ws) :
    ∃ Ps, List.Forall₂ Word ws Ps ∧
    ∀ s vs, Args.of s = ⟨"step", s.span, vs⟩ → Meets Ps vs → ∀ (body : Nested) (Q : Record → Prop),
      Yields (body.step (o.reread stepKeys)) Q → Gives (step s body) fun y =>
      ∃ r, y = .obj r ∧ Q r := by
  simp only [stepWords?, Option.bind_eq_bind, Option.bind_eq_some_iff, Option.pure_def,
    Option.some.injEq] at h
  obtain ⟨_, hbound, kind, hkind, direction, hdirection, targetKind, htarget, targetSubtype, hsubtype,
    status, hstatus, rfl⟩ := h
  obtain ⟨bound, has, halias, rfl⟩ := aliasWord?_eq_some.1 hbound
  have hwords : List.Forall₂ Word bound.toList (bound.toList.map fun a v => v.Names a) := by
    cases bound with
    | none => exact .nil
    | some a => exact .cons (word_binding (halias a rfl)) .nil
  have hstatus' := forall₂_strings status.toList
  rw [← Option.toList_map] at hstatus'
  refine ⟨_, by
    rw [List.append_assoc]
    exact List.rel_append hwords
      (.cons (word_name (by decide) (by decide) (by decide)) (.cons (word_string kind)
      (.cons (word_string direction)
        (.cons (word_string targetKind) (.cons (word_string targetSubtype) hstatus'))))), ?_⟩
  intro s vs hargs hvs body Q hQ
  obtain ⟨us, hus, hlead⟩ := leadingAlias_of halias "step" s.span hvs
  rcases hus with _ | ⟨hvia, _ | ⟨hkind', _ | ⟨hdirection', _ | ⟨htarget', _ | ⟨hsubtype', hus⟩⟩⟩⟩⟩
  simp only [step, hargs, hlead, Args.marker_cons hvia, if_true, Args.text_cons hkind'.text?,
    Args.text_cons hdirection'.text?, Args.text_cons htarget'.text?, Args.text_cons hsubtype'.text?,
    Args.text?_optional hus, Args.finish_nil, pure_bind]
  refine (gives_lift (yields_aliasField fun a ha => hasSigil_of_isBinding (halias a ha))).bind ?_
  rintro _ rfl
  refine (gives_lift (Q := Q) ?_).bind fun r hr => gives_pure ⟨r, rfl, hr⟩
  rw [stepKeys, Record.reread_text hkind, Record.reread_text hdirection, Record.reread_text htarget,
    Record.reread_text hsubtype, Record.reread_optionalText hstatus, Record.reread_optionalText has,
    Record.reread_nil] at hQ
  simpa using hQ

theorem stepWords?_of_alike {o o' : Record} (h : Alike o o') : stepWords? o' = stepWords? o := by
  simp only [stepWords?, h.aliasWord?, h.text?, h.optionalText?]

def StepReturns (x : Json) : Prop :=
  ∀ n, x.forms.step = some n → n.Parses fun s => s.plainKeyword? = some "step" ∧
    Gives (step s s.nested) (Returns (fun z => z.forms.step) x)

/-- The fields of the line come first in the record of a step, then the filters. -/
theorem step_of_reread {o nested : Record} (hv : (Json.obj o).isValid = true)
    (hall : o.hasOnly (stepKeys ++ ["filters"]) = true) (hsub : nested.keys.Sublist ["filters"])
    (hrel : Option.Rel (Returns fun z => z.forms.filters) (o.get? "filters") (nested.get? "filters")) :
    Returns (fun z => z.forms.step) (.obj o) (.obj (o.reread stepKeys ++ nested)) := by
  have hr := recovers_reread_append stepKeys ["filters"] nested hv hall (by decide) hsub (by
    intro key hk
    obtain rfl := List.mem_singleton.1 hk
    exact recovers_of_returns hrel)
  refine ⟨hr, fun ht => ?_⟩
  have ha := alike_of_recovers ht hr
  simp only [Json.step_obj, step?_eq, ha.hasOnly, stepWords?_of_alike ha, ha.has]
  cases hx : o.get? "filters" with
  | none => simp [Record.has, hx]
  | some x =>
    rw [hx] at hrel
    generalize hy : nested.get? "filters" = y at hrel
    cases hrel with
    | some hret =>
      have := hret.2 (isTame_of_get? ht hx)
      rw [Record.forms_of_some hx, forms_reread_append _ _ _ (by decide) hy]
      simp only [this]

theorem step_returns {o : Record} (hv : (Json.obj o).isValid = true)
    (hfilters : ∀ key x, o.get? key = some x → ListReturns Filter.compile Forms.filters x) :
    StepReturns (.obj o) := by
  intro n h
  have hleads : Leads "step" := ⟨by decide, by decide, by decide⟩
  rw [Json.step_obj, step?_eq, Option.ite_none_right_eq_some, Option.bind_eq_some_iff] at h
  obtain ⟨hall, ws, hws, h⟩ := h
  obtain ⟨Ps, hPs, hread⟩ := step_of hws
  split at h
  · next hhas =>
    rw [Option.map_eq_some_iff] at h
    obtain ⟨fs, hfs, rfl⟩ := h
    obtain ⟨x, hx, hfs⟩ := Record.exists_of_form rfl hfs
    have hbody : ParsesAll [.block ["filters"] fs] fun ss =>
      Yields (thread stepPart (Statement.children ss) (o.reread stepKeys))
        fun r => ∃ ys, r = o.reread stepKeys ++ [("filters", .arr ys)] ∧
        Returns (fun z => z.forms.filters) x (.arr ys) := by
      refine (Leads.parses_block ⟨by decide, by decide, by decide⟩ (by decide)
        (hfilters _ x hx fs hfs)).imp ?_
      rintro _ ⟨ss, span, rfl, hss⟩
      simp only [ParsesAll, Statement.children_cons, Statement.children_nil, Statement.nested_block]
      refine yields_thread_cons (hss.bind fun ys hys => ?_) fun r hr => yields_thread_nil hr
      rw [setField_eq
        (by rw [Record.keys_reread]; exact fun hm => absurd (List.mem_of_mem_filter hm) (by decide))]
      exact yields_pure ⟨ys, rfl, hys⟩
    refine (Node.parses_named_block hleads.isName hleads.notSpecial (by decide) hPs hbody).imp ?_
    rintro _ ⟨labels, ss, span, rfl, hlabels, hss⟩
    rw [Statement.nested_block]
    refine ⟨rfl, (hread _ labels rfl hlabels _ _ hss).imp ?_⟩
    rintro _ ⟨_, rfl, ys, rfl, hys⟩
    refine step_of_reread hv hall (.refl _) ?_
    rw [hx]
    exact .some hys
  · next hno =>
    cases h
    refine (Node.parses_words hleads.isName hleads.notSpecial hleads.notShaped hPs).imp ?_
    rintro s ⟨vs, hs, hvs⟩
    have hnested : s.nested = .ofBody [] := by cases hs <;> rw [Statement.nested] <;> simp
    rw [hnested]
    have hstop : Yields ((Nested.ofBody []).step (o.reread stepKeys)) (· = o.reread stepKeys) :=
      yields_pure (Q := (· = o.reread stepKeys)) rfl
    refine ⟨hs.plainKeyword?, (hread s vs hs.args hvs _ _ hstop).imp ?_⟩
    rintro _ ⟨_, rfl, rfl⟩
    have hline : Returns (fun z => z.forms.step) (.obj o) (.obj (o.reread stepKeys ++ [])) := by
      refine step_of_reread hv hall (List.nil_sublist _) ?_
      rw [Record.get?_eq_none_iff.2 (Record.has_eq_false.1 (Bool.eq_false_iff.2 hno))]
      exact .none
    rwa [List.append_nil] at hline

/-- Steps are read one after the other, and leave the rest of the assertion as it is. -/
theorem steps_return {items : List Json} (h : ∀ v ∈ items, StepReturns v) {ns : List Node}
    (hns : (items.mapM fun v => v.forms.step) = some ns) :
    ParsesAll ns fun ss => ∀ d : Draft, Yields (thread part (Statement.children ss) d) fun d' => ∃ ys,
      d' = ⟨d.record, d.steps ++ ys⟩ ∧ List.Forall₂ (Returns fun z => z.forms.step) items ys := by
  induction items generalizing ns with
  | nil =>
    cases hns
    exact fun d => yields_pure ⟨[], by rw [List.append_nil], .nil⟩
  | cons v items ih =>
    obtain ⟨n, more, hn, hmore, rfl⟩ := mapM_cons_eq_some.1 hns
    refine (h v (List.mem_cons_self ..) n hn).imp fun s ⟨hword, hs⟩ =>
      (ih (fun v hv => h v (List.mem_cons_of_mem _ hv)) hmore).imp fun ss hss d => ?_
    have hpart : Yields (part (s, s.nested) d) fun d' => ∃ y, d' = ⟨d.record, d.steps ++ [y]⟩ ∧
        Returns (fun z => z.forms.step) v y := by
      simp only [part, hword]
      exact yields_run hs fun y hy => yields_pure ⟨y, rfl, hy⟩
    rw [Statement.children_cons]
    refine yields_thread_cons hpart ?_
    rintro _ ⟨y, rfl, hy⟩
    refine (hss _).imp ?_
    rintro _ ⟨ys, rfl, hys⟩
    exact ⟨y :: ys, by simp, .cons hy hys⟩

/-! ## Assertions -/

theorem parses_check {check : String} (h : checks.contains check = true) :
    (Node.line ["check", check]).Parses fun s => ∀ nested d, "check" ∉ d.record.keys →
      part (s, nested) d = pure ⟨d.record ++ [("check", .str check)], d.steps⟩ := by
  have hword : Word check (·.Names check) := by
    simp only [checks, List.contains_eq_mem, List.mem_cons, List.not_mem_nil, or_false,
      decide_eq_true_eq] at h
    rcases h with rfl | rfl | rfl <;> exact word_name (by decide) (by decide) (by decide)
  refine (Node.parses_words (by decide) (by decide) (by decide) (.cons hword .nil)).imp ?_
  rintro s ⟨vs, hs, hvs⟩ nested d hd
  rcases hvs with _ | ⟨hv, _ | _⟩
  have hcheck : Path.check s d.record = pure (d.record ++ [("check", .str check)]) := by
    simp only [Path.check, hs.args, Args.text_cons hv.text?, h, Args.finish_nil, setField_eq hd,
      pure_bind, liftM_pure]
    rfl
  simp only [part, hs.plainKeyword?, hs.isBlock, hcheck]
  rfl

theorem count?_eq_some {o : Record} {ns : List Node} : count? o = some ns ↔
    (o.get? "count" = none ∧ [] = ns) ∨ ∃ c ws, o.get? "count" = some (.obj c) ∧ Record.hasOnly c
    ["min", "max"] = true ∧
      requiredBounds? c = some ws ∧ [Node.line ("count" :: ws)] = ns := by
  rw [count?]
  cases hx : o.get? "count" with
  | none => simp
  | some x => cases x <;> simp [Option.bind_eq_some_iff]

theorem parses_count {o : Record} (hv : (Json.obj o).isValid = true) {ns : List Node}
    (h : count? o = some ns) : ParsesAll ns fun ss => ∃ r : Record, r.keys.Sublist ["count"] ∧
      Option.Rel Json.Recovers (o.get? "count") (r.get? "count") ∧
      ((Json.obj o).isTame = true → ∀ o' : Record, o'.get? "count" = r.get? "count" →
        count? o' = some ns) ∧
      ∀ d : Draft, "count" ∉ d.record.keys → thread part (Statement.children ss) d =
      pure ⟨d.record ++ r, d.steps⟩ := by
  rcases count?_eq_some.1 h with ⟨hnone, rfl⟩ | ⟨c, ws, hc, hall, hws, rfl⟩
  · refine ⟨[], List.nil_sublist _, by rw [hnone]; exact .none,
      fun _ o' ho => count?_eq_some.2 (.inl ⟨ho, rfl⟩), fun d _ => ?_⟩
    rw [List.append_nil, Statement.children_nil]
    rfl
  · have hvc := isValid_of_get? hv hc
    obtain ⟨hbs, hne⟩ := requiredBounds?_eq_some.1 hws
    obtain ⟨b, r, hb⟩ := exists_bounded hvc hbs
    obtain ⟨comparison, rfl⟩ := hb.exists_comparison hne
    have hr : Rewritten c r := hb.rewritten [] hall (by decide)
    refine (Node.parses_compared (k := "count") (by decide) (by decide) (by decide) .nil
      hb.compared).imp ?_
    rintro s ⟨vs, hs, -⟩
    refine ⟨[("count", .obj r)], .refl _, ?_, fun ht o' ho => ?_, fun d hd => ?_⟩
    · rw [hc]
      exact .some (hr.recovers hvc)
    · have htc := isTame_of_get? ht hc
      refine count?_eq_some.2 (.inr ⟨r, ws, ho, ?_, ?_, rfl⟩)
      · rw [(hr.alike htc).hasOnly, hall]
      · rw [hr.requiredBounds? htc, hws]
    · have hcount : count s d.record = pure (d.record ++ [("count", .obj r)]) := by
        simp only [count, hs.comparison?, hb.some comparison s.span rfl, setField_eq hd,
          pure_bind, liftM_pure]
      simp only [Statement.children_cons, Statement.children_nil, thread, part, hs.plainKeyword?,
        hs.isBlock, hcount]
      rfl

theorem where?_eq_some {o : Record} {forms : String → Forms} {ns : List Node} :
    where? o forms = some ns ↔
    (o.has "where" = false ∧ [] = ns) ∨
      (o.has "where" = true ∧ ∃ cs, (forms "where").constraints = some cs ∧
      [Node.block ["where"] cs] = ns) := by
  rw [where?]
  cases o.has "where" <;> simp [Option.bind_eq_some_iff]

theorem parses_where {o : Record}
    (hconstraints : ∀ key x, o.get? key = some x → ListReturns constraint Forms.constraints x)
    {ns : List Node} (h : where? o o.forms = some ns) :
    ParsesAll ns fun ss => ∀ d : Draft, "where" ∉ d.record.keys →
      Yields (thread part (Statement.children ss) d) fun d' => ∃ r : Record, d' =
      ⟨d.record ++ r, d.steps⟩ ∧
        r.keys.Sublist ["where"] ∧
        Option.Rel (Returns fun z => z.forms.constraints) (o.get? "where") (r.get? "where") := by
  rcases where?_eq_some.1 h with ⟨hno, rfl⟩ | ⟨hhas, cs, hcs, rfl⟩
  · intro d _
    refine yields_pure ⟨[], by rw [List.append_nil], List.nil_sublist _, ?_⟩
    rw [Record.get?_eq_none_iff.2 (Record.has_eq_false.1 hno)]
    exact .none
  · obtain ⟨x, hx, hcs⟩ := Record.exists_of_form rfl hcs
    refine (Leads.parses_block ⟨by decide, by decide, by decide⟩ (by decide)
      (hconstraints _ x hx cs hcs)).imp ?_
    rintro _ ⟨ss, span, rfl, hss⟩ d hd
    simp only [Statement.children_cons, Statement.children_nil, Statement.nested_block]
    refine yields_thread_cons (P := fun d' => ∃ ys, d' = ⟨d.record ++ [("where", .arr ys)], d.steps⟩ ∧
      Returns (fun z => z.forms.constraints) x (.arr ys)) ?_ ?_
    · have hpart : part (.block "where" false [] ss span, .ofBody (Statement.children ss)) d = do
          let found ← constraints (Statement.children ss)
          return { d with record := ← setField "where" (.arr found) span d.record } := rfl
      rw [hpart]
      refine hss.bind fun ys hys => ?_
      rw [setField_eq hd]
      exact yields_pure ⟨ys, rfl, hys⟩
    · rintro _ ⟨ys, rfl, hys⟩
      refine yields_thread_nil ⟨_, rfl, .refl _, ?_⟩
      rw [hx]
      exact .some hys

theorem write?_eq_some {o : Record} {forms : String → Forms} {ns : List Node} :
    write? o forms = some ns ↔
    o.hasOnly ["check", "path", "count", "where"] = true ∧ ∃ check, text? o "check" = some check ∧
      checks.contains check = true ∧ ∃ steps, (forms "path").steps = some steps ∧
        ∃ count, count? o = some count ∧
        ∃ found, where? o forms = some found ∧ .line ["check", check] ::
        (steps ++ (count ++ found)) = ns := by
  simp [write?, Option.bind_eq_some_iff]

structure Details (o : Record) (count : List Node) (r : Record) : Prop where
  keys : r.keys.Sublist ["count", "where"]
  counted : Option.Rel Json.Recovers (o.get? "count") (r.get? "count")
  again : (Json.obj o).isTame = true → ∀ o' : Record, o'.get? "count" = r.get? "count" →
    count? o' = some count
  found : Option.Rel (Returns fun z => z.forms.constraints) (o.get? "where") (r.get? "where")

theorem get?_of_sublist {r : Record} {keys : List String} (h : r.keys.Sublist keys) {key : String}
    (hk : key ∉ keys) : r.get? key = none := Record.get?_eq_none_iff.2 fun hm => hk (h.subset hm)

theorem parses_details {o : Record} (hv : (Json.obj o).isValid = true)
    (hconstraints : ∀ key x, o.get? key = some x → ListReturns constraint Forms.constraints x)
    {count found : List Node} (hcount : count? o = some count)
    (hwhere : where? o o.forms = some found) : ParsesAll (count ++ found) fun ss =>
    ∀ d : Draft, d.record.keys = ["check"] →
      Yields (thread part (Statement.children ss) d) fun d' => ∃ r, d' = ⟨d.record ++ r, d.steps⟩ ∧
      Details o count r := by
  refine (parses_where hconstraints hwhere).append (parses_count hv hcount) ?_
  rintro ss ts ⟨r, hkeys, hr, hagain, hrun⟩ hts d hd
  have hnew : "where" ∉ (d.record ++ r).keys := by
    rw [Record.keys_append, hd, List.mem_append, not_or]
    exact ⟨by decide, fun hm => absurd (hkeys.subset hm) (by decide)⟩
  rw [Statement.children_append, thread_append, hrun d (by rw [hd]; decide), pure_bind]
  refine (hts ⟨d.record ++ r, d.steps⟩ hnew).imp ?_
  rintro _ ⟨r', rfl, hkeys', hr'⟩
  have hcount' : Record.get? (r ++ r') "count" = r.get? "count" := by
    rw [Record.get?_append, get?_of_sublist hkeys' (by decide), Option.or_none]
  have hwhere' : Record.get? (r ++ r') "where" = r'.get? "where" := by
    rw [Record.get?_append, get?_of_sublist hkeys (by decide), Option.none_or]
  exact ⟨r ++ r', by simp, by rw [Record.keys_append]; exact hkeys.append hkeys',
    by rwa [hcount'], by rwa [hcount'], by rwa [hwhere']⟩

/-- An assertion is its check, its count and its constraints, and its path. -/
theorem returns_of_details {o : Record} (hv : (Json.obj o).isValid = true) {ns : List Node}
    (h : write? o o.forms = some ns) {count : List Node} (hcount : count? o = some count)
    {items : List Json} (hx : o.get? "path" = some (.arr items)) {r : Record} {ys : List Json}
    (hr : Details o count r) (hys : List.Forall₂ (Returns fun z => z.forms.step) items ys) :
    Returns (fun z => z.forms.path) (.obj o)
      (.obj (o.reread ["check"] ++ (r ++ [("path", .arr ys)]))) := by
  have hget : ∀ key, key ≠ "path" → Record.get? (r ++ [("path", .arr ys)]) key = r.get? key := by
    intro key hk
    rw [Record.get?_append, Record.get?_cons, if_neg (Ne.symm hk), Record.get?_nil, Option.or_none]
  have hpath : Record.get? (r ++ [("path", .arr ys)]) "path" = some (.arr ys) :=
    Record.get?_append_last (fun hm => absurd (hr.keys.subset hm) (by decide)) _
  have hall : o.hasOnly (["check"] ++ ["count", "where", "path"]) = true := by
    have := Record.hasOnly_iff.1 (write?_eq_some.1 h).1
    refine Record.hasOnly_iff.2 fun key hk => ?_
    have := this key hk
    simp only [List.mem_cons, List.mem_append] at this ⊢
    tauto
  -- the path stands at the end of what comes back, wherever it was
  have hback := recovers_reread_append ["check"] ["count", "where", "path"] (r ++ [("path", .arr ys)])
    hv hall (by decide) ?_ ?_
  · refine ⟨hback, fun ht => ?_⟩
    have ha := alike_of_recovers ht hback
    have hsteps : (Record.forms (o.reread ["check"] ++ (r ++ [("path", .arr ys)])) "path").steps =
      (o.forms "path").steps := by
      rw [forms_reread_append _ _ _ (by decide) hpath, Record.forms_of_some hx, Forms.lists_steps.arr,
        Forms.lists_steps.arr, mapM_of_returns hys (Json.every_arr.1 (isTame_of_get? ht hx)).2]
    have hcount' : count? (o.reread ["check"] ++ (r ++ [("path", .arr ys)])) = count? o := by
      rw [hcount]
      refine hr.again ht _ ?_
      rw [Record.get?_append, Record.get?_reread, if_neg (by decide), Option.none_or,
        hget _ (by decide)]
    have hwhere : o.has "where" = true →
        (Record.forms (o.reread ["check"] ++ (r ++ [("path", .arr ys)])) "where").constraints =
          (o.forms "where").constraints := by
      intro hhas
      obtain ⟨z, hz⟩ := Option.isSome_iff_exists.1 hhas
      have hfound := hr.found
      rw [hz] at hfound
      generalize hz' : r.get? "where" = z' at hfound
      cases hfound with
      | some hret =>
        rw [forms_reread_append _ _ _ (by decide) ((hget _ (by decide)).trans hz'),
          Record.forms_of_some hz]
        exact hret.2 (isTame_of_get? ht hz)
    simp only [Json.path_obj, write?, where?, ha.hasOnly, ha.text?, ha.has, hsteps, hcount']
    cases hhas : o.has "where" with
    | false => rfl
    | true => simp [hwhere hhas]
  · rw [Record.keys_append]
    exact hr.keys.append (.refl ["path"])
  · intro key hk
    simp only [List.mem_cons, List.not_mem_nil, or_false] at hk
    rcases hk with rfl | rfl | rfl
    · rw [hget _ (by decide)]
      exact hr.counted
    · rw [hget _ (by decide)]
      exact recovers_of_returns hr.found
    · rw [hx, hpath]
      exact .some (Json.recoversItems_iff.2 (hys.imp fun _ _ h => h.1))

theorem path_returns {o : Record} (hv : (Json.obj o).isValid = true)
    (hsteps : ∀ key items, o.get? key = some (.arr items) → ∀ v ∈ items, StepReturns v)
    (hconstraints : ∀ key x, o.get? key = some x → ListReturns constraint Forms.constraints x) :
    PathReturns (.obj o) := by
  intro ns h
  rw [Json.path_obj] at h
  obtain ⟨hall, check, hcheck, hchecks, ms, hms, count, hcount, found, hwhere, rfl⟩ :=
    write?_eq_some.1 h
  obtain ⟨x, hx, hms⟩ := Record.exists_of_form rfl hms
  obtain ⟨items, rfl⟩ : ∃ items, x = .arr items := by
    cases hx : x.array? with
    | none =>
      rw [Forms.lists_steps.other x hx] at hms
      cases hms
    | some items => exact ⟨items, Json.array?_eq_some.1 hx⟩
  rw [Forms.lists_steps.arr] at hms
  refine (parses_check hchecks).imp fun s hs => ?_
  refine (parses_details hv hconstraints hcount hwhere).append (steps_return (hsteps _ items hx) hms)
    fun ss ts hss hts span => ?_
  rw [Path.compile, Statement.children_cons, Statement.children_append]
  -- first the check is read, then the steps, then the count and the constraints
  have hthread :
    Yields (thread part ((s, s.nested) :: (Statement.children ss ++ Statement.children ts)) ⟨[], []⟩)
    fun d =>
      ∃ (r : Record) (ys : List Json), d = ⟨("check", .str check) :: r, ys⟩ ∧ Details o count r ∧
        List.Forall₂ (Returns fun z => z.forms.step) items ys := by
    rw [thread, hs s.nested ⟨[], []⟩ (by simp), pure_bind, thread_append]
    refine (hss _).bind ?_
    rintro _ ⟨ys, rfl, hys⟩
    refine (hts _ rfl).imp ?_
    rintro _ ⟨r, rfl, hr⟩
    exact ⟨r, ys, by simp, hr, hys⟩
  refine hthread.bind ?_
  rintro _ ⟨r, ys, rfl, hr, hys⟩
  have hhas : Record.has (("check", .str check) :: r) "check" = true := by simp [Record.has_iff]
  have hrecord : ("check", Json.str check) :: r ++ [("path", .arr ys)] = o.reread ["check"] ++
    (r ++ [("path", .arr ys)]) := by
    rw [Record.reread_text hcheck]
    rfl
  simp only [hhas, Bool.not_true, Bool.false_eq_true, if_false, hrecord]
  exact yields_pure (returns_of_details hv h hcount hx hr hys)

end Worldbook.Path
