import Worldbook.Proofs.Accounts

/-!
# What a statement says is in its record

A statement of a condition list or of a path that compiles without a report has each of its
arguments in the record, or uses it as a marker word, and the readings of its body report nothing
either. A comparison is there as bounds where the keyword looks at it, which not every keyword does.
-/

namespace Worldbook

open CompileM

namespace Statement

theorem mem_children {body : List Statement} {c : Child} :
    c ∈ children body ↔ ∃ t ∈ body, (t, t.nested) = c := by
  rw [children_eq_map, List.mem_map]

/-- The readings of a statement are those of the body of a block, or of no statements. -/
theorem exists_nested (t : Statement) : ∃ body, t.nested = .ofBody (children body) := by
  cases t with
  | block name quoted labels body span => exact ⟨body, by rw [nested]⟩
  | _ => exact ⟨[], by rw [children, nested]; simp⟩

end Statement

/-! ## Conditions -/

namespace Condition

namespace Keyword

/-- The words that only say which argument comes next. -/
def markers : Keyword → List String
  | cap | entityCount => ["kind"]
  | timeElapsed => ["since"]
  | prominence => ["min", "max"]
  | _ => []

/-- The keyword looks at a comparison: it takes it as bounds or refuses it. -/
def readsComparison : Keyword → Bool
  | pressure | cap | entityCount | relationshipExists | relationshipCount => true
  | _ => false

def heeded? (k : Keyword) (t : Statement) : Option (Comparator × Number × Option Number) :=
  if k.readsComparison then t.comparison? else none

/-- The fields of a line are its arguments and the bounds of its comparison. -/
def Covers (k : Keyword) (s : Scope) (t : Statement) (r : Record) : Prop :=
  ∃ fs bs, r = fs ++ bs ∧ Accounts s k.markers t.positional fs ∧ Limits (k.heeded? t) bs

theorem answers_relationshipFields {s : Scope} (a : Args) :
    Answers s (relationshipFields a) fun p => ∀ markers, Args.Puts s markers a p.2 p.1 := by
  unfold relationshipFields
  refine (Args.answers_text _ _).bind fun ⟨kind, b⟩ hkind => ?_
  refine (Args.answers_text _ _).bind fun ⟨direction, c⟩ hdirection => ?_
  refine answers_pure fun markers => ?_
  exact (((hkind _ _).trans (hdirection _ _)).trans (Args.puts_text? _)).trans (Args.puts_text? _)

/-- Where the keyword does not look at a comparison, the arguments are all. -/
theorem covers_of_accounts {s : Scope} {k : Keyword} {t : Statement} {fs : Record}
    (hk : k.readsComparison = false) (h : Accounts s k.markers t.positional fs) : k.Covers s t fs := by
  refine ⟨fs, [], (List.append_nil fs).symm, h, ?_⟩
  rw [heeded?, hk]
  exact .none

theorem answers_fields {s : Scope} {k : Keyword} (hk : k.isBlock = false) (t : Statement)
    (body : Nested) : Answers s (k.fields t body) (k.Covers s t) := by
  cases k with
  | and | or | graphPath | generic => cases hk
  | pressure =>
    refine (Args.answers_text _ _).bind fun ⟨id, a⟩ hid => ?_
    refine (answers_requiredBounds t).bind fun bounds hbounds => ?_
    refine (Args.answers_finish _).bind fun _ hrest => answers_pure ?_
    exact ⟨_, bounds, rfl, (hid _ "pressureId").accounts hrest, hbounds⟩
  | cap =>
    refine (Args.answers_text _ _).bind fun ⟨kind, a⟩ hkind => ?_
    refine (answers_requiredBounds t).bind fun bounds hbounds => ?_
    refine (Args.answers_finish _).bind fun _ hrest => answers_pure ?_
    exact ⟨_, bounds, rfl, ((Args.puts_marker (by decide)).trans (hkind _ "kind")).accounts hrest,
      hbounds⟩
  | entityCount =>
    refine (Args.answers_text _ _).bind fun ⟨kind, a⟩ hkind => ?_
    refine (answers_optionalBounds t).bind fun bounds hbounds => ?_
    refine (Args.answers_finish _).bind fun _ hrest => answers_pure ?_
    have hword : "kind" ∈ markers .entityCount := by decide
    have hputs :=
      (((Args.puts_marker hword).trans (hkind _ "kind")).trans (Args.puts_text? "subtype")).trans
      (Args.puts_text? "status")
    exact ⟨_, bounds, rfl, hputs.accounts hrest, hbounds⟩
  | tagExists | lacksTag =>
    refine (Args.answers_text _ _).bind fun ⟨tag, a⟩ htag => ?_
    refine (answers_optionalReference "entity" _).bind fun entity hentity => ?_
    refine (Args.answers_finish _).bind fun _ hrest => answers_pure ?_
    subst hentity
    exact covers_of_accounts rfl (((htag _ "tag").trans (Args.puts_value? "entity")).accounts hrest)
  | relationshipExists =>
    refine (answers_relationshipFields _).bind fun ⟨fields, a⟩ hfields => ?_
    dsimp only
    split
    · exact answers_reject_bind ..
    · next hnone =>
      refine (Args.answers_finish _).bind fun _ hrest => answers_pure ?_
      refine ⟨fields, [], (List.append_nil _).symm, (hfields _).accounts hrest, ?_⟩
      rw [heeded?, Option.not_isSome_iff_eq_none.1 hnone, ite_self]
      exact .none
  | relationshipCount =>
    refine (answers_relationshipFields _).bind fun ⟨fields, a⟩ hfields => ?_
    refine (answers_optionalBounds t).bind fun bounds hbounds => ?_
    refine (Args.answers_finish _).bind fun _ hrest => answers_pure ?_
    exact ⟨fields, bounds, rfl, (hfields _).accounts hrest, hbounds⟩
  | randomChance =>
    refine (Args.answers_number _ _).bind fun ⟨chance, a⟩ hchance => ?_
    refine (Args.answers_finish _).bind fun _ hrest => answers_pure ?_
    exact covers_of_accounts rfl ((hchance _ "chance").accounts hrest)
  | timeElapsed =>
    refine (Args.answers_number _ _).bind fun ⟨ticks, a⟩ hticks => ?_
    refine (Args.answers_markedText (markers .timeElapsed) _ (by decide) _).bind
      fun ⟨since, b⟩ hsince => ?_
    refine (Args.answers_finish _).bind fun _ hrest => answers_pure ?_
    exact covers_of_accounts rfl (((hticks _ "minTicks").trans (hsince "since")).accounts hrest)
  | eraMatch =>
    -- the one keyword that takes all its arguments at once
    simp only [fields]
    split
    · exact answers_reject_bind ..
    · exact answers_pure (covers_of_accounts rfl (.list (Args.of t) "eras"))
  | prominence =>
    refine (Args.answers_markedText (markers .prominence) _ (by decide) _).bind
      fun ⟨least, a⟩ hleast => ?_
    refine (Args.answers_markedText (markers .prominence) _ (by decide) _).bind
      fun ⟨most, b⟩ hmost => ?_
    dsimp only
    split
    · exact answers_reject_bind ..
    · refine (Args.answers_finish _).bind fun _ hrest => answers_pure ?_
      exact covers_of_accounts rfl (((hleast "min").trans (hmost "max")).accounts hrest)
  | entityExists =>
    refine (Args.answers_value _ _).bind fun ⟨v, a⟩ hv => ?_
    refine (answers_requiredReference v).bind fun entity hentity => ?_
    refine (Args.answers_finish _).bind fun _ hrest => answers_pure ?_
    subst hentity
    refine covers_of_accounts rfl ?_
    rw [show t.positional = v :: a.rest from hv, hrest]
    exact .reference "entity" .nil
  | notSelf =>
    refine (Args.answers_finish _).bind fun _ hrest => answers_pure ?_
    refine covers_of_accounts rfl ?_
    rw [show t.positional = [] from hrest]
    exact .nil

theorem of_fits {k : Keyword} {t : Statement} (h : k.fits t = true) :
    (k.isBlock = true ∧ t.positional = []) ∨ (k.isBlock = false ∧ t.isBlock = false) := by
  cases t with
  | block name quoted labels body span =>
    simp only [fits, Bool.and_eq_true, List.isEmpty_iff] at h
    exact .inl h
  | field | predicate | bare => exact .inr ⟨by simpa [fits] using h, rfl⟩
  | _ => cases h

end Keyword

inductive Covers (s : Scope) (t : Statement) (s' : Scope) : Json → Prop
  | line {k : Keyword} {r : Record} (hword : t.plainKeyword?.bind Keyword.ofWord? = some k)
      (hline : t.isBlock = false) (h : k.Covers s t r) :
      Covers s t s' (.obj (textField "type" k.word :: r))
  | list {k : Keyword} {found : List Json} (hword : t.plainKeyword?.bind Keyword.ofWord? = some k)
      (hk : k = .and ∨ k = .or) (hlabels : t.positional = [])
      (h : Runs t.nested.conditions s found s' []) :
      Covers s t s' (.obj [textField "type" k.word, ("conditions", .arr found)])
  | path {r : Record} (hword : t.plainKeyword?.bind Keyword.ofWord? = some .graphPath)
      (hlabels : t.positional = []) (h : Runs (t.nested.path t.span) s r s' []) :
      Covers s t s' (.obj [textField "type" "graph_path", ("assert", .obj r)])
  | record {r : Record} (hword : t.plainKeyword?.bind Keyword.ofWord? = some .generic)
      (hlabels : t.positional = []) (h : Runs (t.nested.fields []) s r s' []) : Covers s t s' (.obj r)

theorem of_runs_body {α : Type} {m : CompileM α} (hm : Appends m) {a : Args} {f : α → Record}
    {s s' : Scope} {r : Record}
    (h : Runs (do let found ← liftM m; a.finish; return f found : Attempt Record).run s
      (some r) s' []) :
    ∃ found, Runs m s found s' [] ∧ r = f found := by
  obtain ⟨found, t, hfound, h⟩ := h.of_bind hm.lift fun _ => a.tries_finish.onlyAdds.bind fun _ =>
    onlyAdds_pure _
  obtain ⟨_, -, h⟩ := (Args.answers_finish a).peel h
  obtain ⟨hr, rfl, -⟩ := (runs_pure _ t).eq h
  cases hr
  exact ⟨found, hfound.of_lift hm, rfl⟩

theorem covers_of_block {t : Statement} {k : Keyword}
    (hword : t.plainKeyword?.bind Keyword.ofWord? = some k) (hk : k.isBlock = true)
    (hlabels : t.positional = []) {s s' : Scope} {r : Record}
    (h : Runs (k.fields t t.nested).run s (some r) s' []) :
    Covers s t s' (.obj (if k = .generic then r else textField "type" k.word :: r)) := by
  have hbody := t.mirrored_nested
  cases k with
  | and | or =>
    obtain ⟨found, hfound, rfl⟩ := of_runs_body hbody.conditions.appends h
    exact .list hword (by decide) hlabels hfound
  | graphPath =>
    obtain ⟨found, hfound, rfl⟩ := of_runs_body (hbody.path _).appends h
    exact .path hword hlabels hfound
  | generic => exact .record hword hlabels (h.of_lift (hbody.fields []).appends)
  | _ => cases hk

theorem covers_of_line {t : Statement} {k : Keyword}
    (hword : t.plainKeyword?.bind Keyword.ofWord? = some k) (hk : k.isBlock = false)
    (hline : t.isBlock = false) {s s' : Scope} {r : Record} {new : List Diagnostic}
    (h : Runs (k.fields t t.nested).run s (some r) s' new) :
    Covers s t s' (.obj (if k = .generic then r else textField "type" k.word :: r)) := by
  obtain ⟨hcovers, rfl⟩ := (Keyword.answers_fields hk t t.nested).of_runs h
  have hgeneric : k ≠ .generic := by
    rintro rfl
    cases hk
  rw [if_neg hgeneric]
  exact .line hword hline hcovers

theorem covers_of_runs {t : Statement} {s s' : Scope} {j : Json}
    (h : Runs (compile t t.nested).run s (some j) s' []) : Covers s t s' j := by
  unfold compile at h
  cases hword : t.plainKeyword?.bind Keyword.ofWord? with
  | none =>
    rw [hword] at h
    exact absurd h not_runs_reject
  | some k =>
    simp only [hword] at h
    split at h
    · exact absurd h not_runs_reject_bind
    · next hfits =>
      obtain ⟨r, s₁, hr, h⟩ := h.of_bind (k.tries_fields t t.mirrored_nested).onlyAdds fun _ =>
        onlyAdds_pure _
      obtain ⟨hj, rfl, -⟩ := (runs_pure _ s₁).eq h
      cases hj
      rcases Keyword.of_fits (by simpa using hfits) with ⟨hk, hlabels⟩ | ⟨hk, hline⟩
      · exact covers_of_block hword hk hlabels hr
      · exact covers_of_line hword hk hline hr

/-- Without a report each statement of a condition list has its condition. -/
theorem covers_of_runs_compileAll {body : List Statement} {s s' : Scope} {js : List Json}
    (h : Runs (compileAll (Statement.children body)) s js s' []) :
    List.Forall₂ (fun t j => ∃ s₁ s₂, Covers s₁ t s₂ j) body js := by
  rw [Statement.children_eq_map, compileAll, collect_map] at h
  exact forall₂_of_runs_collect (fun t _ => ⟨⟨_, tries_compile t t.mirrored_nested⟩,
    fun hrun => ⟨_, _, covers_of_runs hrun⟩⟩) h

end Condition

/-! ## Paths -/

theorem Filter.answers_relationshipFields {s : Scope} (t : Statement) :
    Answers s (relationshipFields t) (Accounts s ["with", "direction"] t.positional) := by
  refine (Args.answers_text _ _).bind fun ⟨kind, a⟩ hkind => ?_
  refine (Args.answers_markedValue ["with", "direction"] _ (by decide) _).bind
    fun ⟨partner, b⟩ hpartner => ?_
  refine (answers_optionalReference "with" partner).bind fun found hfound => ?_
  refine (Args.answers_markedText ["with", "direction"] _ (by decide) _).bind
    fun ⟨direction, c⟩ hdirection => ?_
  refine (Args.answers_finish _).bind fun _ hrest => answers_pure ?_
  subst hfound
  exact (((hkind _ "kind").trans (hpartner "with")).trans (hdirection "direction")).accounts hrest

namespace Path

/-! ### Steps -/

theorem puts_leadingAlias {s : Scope} {markers : List String} (a : Args) :
    Args.Puts s markers a (leadingAlias a).2 (optionalText "as" (leadingAlias a).1) := by
  intro more hmore
  rcases a with ⟨word, span, _ | ⟨v, rest⟩⟩
  · exact hmore
  · cases v with
    | name token place =>
      simp only [leadingAlias] at hmore ⊢
      split
      · next hsigil =>
        rw [if_pos hsigil] at hmore
        exact .literal "as" hmore
      · next hsigil =>
        rw [if_neg hsigil] at hmore
        exact hmore
    | _ => exact hmore

theorem hasSigil_of_leadingAlias {a : Args} :
    ∀ name ∈ (leadingAlias a).1, Scope.hasSigil name = true := by
  intro name hname
  unfold leadingAlias at hname
  split at hname
  · split at hname
    · next hsigil =>
      cases hname
      exact hsigil
    · cases hname
  · cases hname

inductive Detail (s : Scope) (t : Statement) (s' : Scope) : Record → Prop
  | status {fs : Record} (hword : t.plainKeyword? = some "status") (hcomparison : t.comparison? = none)
      (hargs : Accounts s [] t.positional fs) : Detail s t s' fs
  | filters {found : List Json} (hword : t.plainKeyword? = some "filters") (hblock : t.isBlock = true)
      (h : Runs t.nested.filters s found s' []) : Detail s t s' [("filters", .arr found)]

theorem detail_of_runs {t : Statement} {r r' : Record} {s s' : Scope}
    (h : Runs (stepPart (t, t.nested) r) s r' s' []) : ∃ fs, r' = r ++ fs ∧ Detail s t s' fs := by
  have hbody := t.mirrored_nested
  unfold stepPart at h
  split at h
  · next heq =>
    obtain ⟨rfl, -⟩ := Prod.mk.inj heq
    have hstatus := (tries_stepStatus _ _).of_runs_orElseKeep h
    obtain ⟨⟨status, a⟩, hputs, hstatus⟩ := (Args.answers_text _ _).peel hstatus
    obtain ⟨_, hrest, hstatus⟩ := (Args.answers_finish _).peel hstatus
    obtain ⟨rfl, -⟩ := (hstatus.of_lift (appends_setField _ _ _ _)).of_setField
    exact ⟨_, rfl, .status rfl rfl ((hputs [] "targetStatus").accounts hrest)⟩
  · next heq =>
    obtain ⟨rfl, rfl⟩ := Prod.mk.inj heq
    obtain ⟨found, s₁, hfound, h⟩ := h.of_seq hbody.filters.appends fun found =>
      appends_setField _ _ _ _
    obtain ⟨rfl, rfl⟩ := h.of_setField
    exact ⟨_, rfl, .filters rfl rfl hfound⟩
  · exact (not_silent_report h (appends_pure _)).elim

/-- Without a report the body of a step only adds to its fields, and what
each statement adds is there in the end. -/
theorem details_of_runs {body : List Statement} {r r' : Record} {s s' : Scope}
    (h : Runs (thread stepPart (Statement.children body) r) s r' s' []) :
    r <+: r' ∧ ∀ t ∈ body, ∃ s₁ s₂ before fs, Detail s₁ t s₂ fs ∧ before ++ fs <+: r' := by
  have hpart (c : Child) (hc : c ∈ Statement.children body) (r : Record) : Appends (stepPart c r) ∧
      ∀ {r' t t'}, Runs (stepPart c r) t r' t' [] → r <+: r' := by
    obtain ⟨t, -, rfl⟩ := Statement.mem_children.1 hc
    refine ⟨(mirrors_stepPart (t, t.nested) t.mirrored_nested r).appends, fun hrun => ?_⟩
    obtain ⟨fs, rfl, -⟩ := detail_of_runs hrun
    exact List.prefix_append ..
  obtain ⟨hfront, hall⟩ := h.of_thread List.prefix_refl List.IsPrefix.trans hpart
  refine ⟨hfront, fun t ht => ?_⟩
  obtain ⟨before, after, s₁, s₂, hrun, hafter⟩ := hall _ (Statement.mem_children.2 ⟨t, ht, rfl⟩)
  obtain ⟨fs, rfl, hdetail⟩ := detail_of_runs hrun
  exact ⟨s₁, s₂, before, fs, hdetail, hafter⟩

theorem prefix_of_runs_step {t : Statement} {r r' : Record} {s s' : Scope}
    (h : Runs (t.nested.step r) s r' s' []) : r <+: r' := by
  obtain ⟨body, hbody⟩ := t.exists_nested
  rw [hbody] at h
  exact (details_of_runs h).1

/-- The fields of a step are its arguments, the alias behind the others, and
then what its body adds. -/
theorem step_of_runs {t : Statement} {s s' : Scope} {j : Json}
    (h : Runs (step t t.nested).run s (some j) s' []) :
    ∃ bound fs more s₁, Accounts s ["via"] t.positional (bound ++ fs) ∧ j = .obj (fs ++ bound ++ more) ∧
      Runs (t.nested.step (fs ++ bound)) s₁ (fs ++ bound ++ more) s' [] := by
  have hbody := t.mirrored_nested
  have halias : Args.Puts s ["via"] (Args.of t) (leadingAlias (Args.of t)).2
      (optionalText "as" (leadingAlias (Args.of t)).1) := puts_leadingAlias _
  have hsigil := hasSigil_of_leadingAlias (a := Args.of t)
  unfold step at h
  generalize leadingAlias (Args.of t) = l at h halias hsigil
  obtain ⟨name, a⟩ := l
  have hvia : Args.Puts s ["via"] a (a.marker "via").2 [] := Args.puts_marker (by decide)
  dsimp only at h
  generalize a.marker "via" = m at h hvia
  obtain ⟨_, b⟩ := m
  obtain ⟨⟨kind, c⟩, hkind, h⟩ := (Args.answers_text b _).peel h
  obtain ⟨⟨direction, d⟩, hdirection, h⟩ := (Args.answers_text c _).peel h
  obtain ⟨⟨targetKind, e⟩, htargetKind, h⟩ := (Args.answers_text d _).peel h
  obtain ⟨⟨targetSubtype, f⟩, htargetSubtype, h⟩ := (Args.answers_text e _).peel h
  have hstatus : Args.Puts s ["via"] f f.text?.2 (optionalText "targetStatus" f.text?.1) :=
    Args.puts_text? _
  dsimp only at h
  generalize f.text? = o at h hstatus
  obtain ⟨status, g⟩ := o
  obtain ⟨_, hrest, h⟩ := (Args.answers_finish g).peel h
  -- the alias is bound behind the arguments, so all of them are read in the scope in front of it
  obtain ⟨s₁, hbound⟩ := runs_aliasField hsigil s
  have h := hbound.lift.after h
  obtain ⟨r, s₂, hr, h⟩ := h.of_bind (hbody.step _).lift.onlyAdds fun _ => onlyAdds_pure _
  obtain ⟨hj, rfl, -⟩ := (runs_pure _ s₂).eq h
  cases hj
  have hr := hr.of_lift (hbody.step _).appends
  obtain ⟨more, rfl⟩ := prefix_of_runs_step hr
  have hline :=
    ((((hvia.trans (hkind _ "via")).trans (hdirection _ "direction")).trans
      (htargetKind _ "targetKind")).trans
    (htargetSubtype _ "targetSubtype")).trans hstatus
  exact ⟨optionalText "as" name, _, more, s₁, (halias.trans hline).accounts hrest, rfl, hr⟩

/-! ### Constraints -/

def markers (name : String) : List String :=
  if name = "has_relationship" || name = "lacks_relationship" then ["with", "direction"] else []

inductive Constraint (s : Scope) (t : Statement) (s' : Scope) : Json → Prop
  | line {name : String} {fs : Record} (hline : t.isBlock = false) (hcomparison : t.comparison? = none)
      (hargs : Accounts s (markers name) t.positional fs) : Constraint s t s' (typed name fs)
  | record {r : Record} (hlabels : t.positional = []) (h : Runs (t.nested.fields []) s r s' []) :
      Constraint s t s' (.obj r)

theorem answers_membership {s : Scope} (name : String) (t : Statement) :
    Answers s (membership name t) fun j => ∃ fs, j = typed name fs ∧
    Accounts s (markers name) t.positional fs := by
  refine (Args.answers_value _ _).bind fun ⟨v, a⟩ hv => ?_
  refine (answers_reference v).bind fun set hset => ?_
  refine (Args.answers_finish _).bind fun _ hrest => answers_pure ⟨_, rfl, ?_⟩
  subst hset
  rw [show t.positional = v :: a.rest from hv, hrest]
  exact .reference "set" .nil

theorem answers_equality {s : Scope} (field : String) (t : Statement) :
    Answers s (equality field t) fun j =>
    ∃ fs, j = typed (field ++ "_equals") fs ∧
    Accounts s (markers (field ++ "_equals")) t.positional fs := by
  refine (Args.answers_text _ _).bind fun ⟨value, a⟩ hvalue => ?_
  exact (Args.answers_finish _).bind fun _ hrest =>
    answers_pure ⟨_, rfl, (hvalue _ field).accounts hrest⟩

theorem answers_relationship {s : Scope} {name : String} (hname : markers name = ["with", "direction"])
    (t : Statement) : Answers s (relationship name t) fun j => ∃ fs, j = typed name fs ∧
    Accounts s (markers name) t.positional fs := by
  rw [hname]
  exact (Filter.answers_relationshipFields t).bind fun fs hfs => answers_pure ⟨fs, rfl, hfs⟩

theorem constraint_of_runs {t : Statement} {s s' : Scope} {j : Json}
    (h : Runs (constraint t t.nested).run s (some j) s' []) : Constraint s t s' j := by
  have hline {m : Attempt Json} {name : String} (hm : Answers s m fun j =>
      ∃ fs, j = typed name fs ∧ Accounts s (markers name) t.positional fs)
        (hrun : Runs m.run s (some j) s' [])
      (hblock : t.isBlock = false) (hcomparison : t.comparison? = none) : Constraint s t s' j := by
    obtain ⟨⟨fs, rfl, hargs⟩, -⟩ := hm.of_runs hrun
    exact .line hblock hcomparison hargs
  have hbody := t.mirrored_nested
  unfold constraint at h
  split at h
  · exact hline (answers_pure ⟨[], rfl, .nil⟩) h rfl rfl
  · exact hline (answers_membership "in" _) h rfl rfl
  · exact hline (answers_membership "not_in" _) h rfl rfl
  · exact hline (answers_relationship (by decide) _) h rfl rfl
  · exact hline (answers_relationship (by decide) _) h rfl rfl
  · exact hline (answers_equality "kind" _) h rfl rfl
  · exact hline (answers_equality "subtype" _) h rfl rfl
  · obtain ⟨r, s₁, hr, h⟩ := h.of_bind (hbody.fields []).lift.onlyAdds fun _ => onlyAdds_pure _
    obtain ⟨hj, rfl, -⟩ := (runs_pure _ s₁).eq h
    cases hj
    exact .record rfl (hr.of_lift (hbody.fields []).appends)
  · exact absurd h not_runs_reject

/-- Without a report each statement of a list has its constraint. -/
theorem constraints_of_runs {body : List Statement} {s s' : Scope} {js : List Json}
    (h : Runs (constraints (Statement.children body)) s js s' []) :
    List.Forall₂ (fun t j => ∃ s₁ s₂, Constraint s₁ t s₂ j) body js := by
  rw [Statement.children_eq_map, constraints, collect_map] at h
  exact forall₂_of_runs_collect (fun t _ => ⟨⟨_, tries_constraint t t.mirrored_nested⟩,
    fun hrun => ⟨_, _, constraint_of_runs hrun⟩⟩) h

/-! ### Assertions -/

inductive Covers (s : Scope) (t : Statement) (d : Draft) (s' : Scope) : Draft → Prop
  | check {fs : Record} (hword : t.plainKeyword? = some "check") (hline : t.isBlock = false)
      (hargs : Accounts s [] t.positional fs) : Covers s t d s' ⟨d.record ++ fs, d.steps⟩
  | step {bound fs more : Record} {s₁ : Scope} (hword : t.plainKeyword? = some "step")
      (hargs : Accounts s ["via"] t.positional (bound ++ fs))
      (h : Runs (t.nested.step (fs ++ bound)) s₁ (fs ++ bound ++ more) s' []) :
      Covers s t d s' ⟨d.record, d.steps ++ [.obj (fs ++ bound ++ more)]⟩
  | count {comparison : Comparator × Number × Option Number} {bs : Record}
      (hword : t.plainKeyword? = some "count") (hcomparison : t.comparison? = some comparison)
      (hbounds : Limits (some comparison) bs) :
      Covers s t d s' ⟨d.record ++ [("count", .obj bs)], d.steps⟩
  | where {found : List Json} (hword : t.plainKeyword? = some "where") (hblock : t.isBlock = true)
      (h : Runs t.nested.constraints s found s' []) :
      Covers s t d s' ⟨d.record ++ [("where", .arr found)], d.steps⟩

theorem check_of_runs {t : Statement} {r r' : Record} {s s' : Scope}
    (h : Runs (check t r).run s (some r') s' []) : ∃ fs, r' = r ++ fs ∧ Accounts s
    [] t.positional fs := by
  obtain ⟨⟨check, a⟩, hputs, h⟩ := (Args.answers_text _ _).peel h
  dsimp only at h
  split at h
  · exact absurd h not_runs_reject_bind
  · obtain ⟨_, hrest, h⟩ := (Args.answers_finish _).peel h
    obtain ⟨rfl, -⟩ := (h.of_lift (appends_setField _ _ _ _)).of_setField
    exact ⟨_, rfl, (hputs [] "check").accounts hrest⟩

theorem count_of_runs {t : Statement} {r r' : Record} {s s' : Scope}
    (h : Runs (count t r).run s (some r') s' []) : ∃ comparison bs, t.comparison? = some comparison ∧
    Limits (some comparison) bs ∧ r' = r ++ [("count", .obj bs)] := by
  unfold count at h
  split at h
  · next comparison hcomparison =>
    obtain ⟨bs, hbs, h⟩ := (answers_boundFields comparison _).peel h
    obtain ⟨rfl, -⟩ := (h.of_lift (appends_setField _ _ _ _)).of_setField
    exact ⟨comparison, bs, hcomparison, hbs, rfl⟩
  · exact absurd h not_runs_reject

theorem covers_of_runs {t : Statement} {d d' : Draft} {s s' : Scope}
    (h : Runs (part (t, t.nested) d) s d' s' []) : Covers s t d s' d' := by
  have hbody := t.mirrored_nested
  unfold part at h
  dsimp only at h
  split at h
  · next hword =>
    simp only [Bool.and_eq_true, decide_eq_true_eq, Bool.not_eq_true'] at hword
    obtain ⟨r, hr, rfl⟩ := h.split_map (mirrors_orElseKeep (tries_check t _) _).appends
    obtain ⟨fs, rfl, hargs⟩ := check_of_runs ((tries_check t _).of_runs_orElseKeep hr)
    exact .check hword.1 hword.2 hargs
  split at h
  · next hword =>
    obtain ⟨found, hfound, rfl⟩ := h.split_map (tries_step t hbody).run.appends
    obtain ⟨j, rfl⟩ := (tries_step t hbody).exists_of_runs hfound
    obtain ⟨bound, fs, more, s₁, hargs, rfl, hmore⟩ := step_of_runs hfound
    exact .step hword hargs hmore
  split at h
  · next hword =>
    obtain ⟨r, hr, rfl⟩ := h.split_map (mirrors_orElseKeep (tries_count t _) _).appends
    obtain ⟨comparison, bs, hcomparison, hbs, rfl⟩ :=
      count_of_runs ((tries_count t _).of_runs_orElseKeep hr)
    exact .count hword hcomparison hbs
  split at h
  · next hword =>
    simp only [Bool.and_eq_true, decide_eq_true_eq] at hword
    obtain ⟨found, s₁, hfound, h⟩ := h.of_seq hbody.constraints.appends fun found =>
      (appends_setField _ _ _ _).bind fun _ => appends_pure _
    obtain ⟨r, hr, rfl⟩ := h.split_map (appends_setField _ _ _ _)
    obtain ⟨rfl, rfl⟩ := hr.of_setField
    exact .where hword.1 hword.2 hfound
  · exact (not_silent_report h (appends_pure _)).elim

def Draft.Below (d d' : Draft) : Prop := d.record <+: d'.record ∧ d.steps <+: d'.steps

theorem Covers.below {t : Statement} {d d' : Draft} {s s' : Scope} (h : Covers s t d s' d') :
    d.Below d' := by
  cases h with
  | step => exact ⟨List.prefix_refl _, List.prefix_append ..⟩
  | _ => exact ⟨List.prefix_append .., List.prefix_refl _⟩

/-- Without a report what each statement of an assertion adds is there in the end. -/
theorem covers_of_runs_compile {body : List Statement} {block : Span} {r : Record} {s s' : Scope}
    (h : Runs (compile (Statement.children body) block) s r s' []) :
    ∃ d : Draft, r = d.record ++ [("path", .arr d.steps)] ∧
      ∀ t ∈ body, ∃ s₁ s₂ before after, Covers s₁ t before s₂ after ∧ after.Below d := by
  have hpart (c : Child) (hc : c ∈ Statement.children body) (d : Draft) : Appends (part c d) ∧
      ∀ {d' t t'}, Runs (part c d) t d' t' [] → d.Below d' := by
    obtain ⟨t, -, rfl⟩ := Statement.mem_children.1 hc
    exact ⟨(mirrors_part (t, t.nested) t.mirrored_nested d).appends, fun hrun =>
      (covers_of_runs hrun).below⟩
  have hreport (d : Draft) : Appends (do
      if !d.record.has "check" then report .missingCheck block
      return d.record ++ [("path", .arr d.steps)]) := by
    split
    · exact (appends_report _ _).bind fun _ => appends_pure _
    · exact appends_pure _
  obtain ⟨d, s₁, hd, h⟩ := h.of_seq (appends_thread (fun c hc d => (hpart c hc d).1) _) hreport
  refine ⟨d, ?_, fun t ht => ?_⟩
  · split at h
    · exact (not_silent_report h (appends_pure _)).elim
    · exact ((runs_pure _ s₁).eq h).1.symm
  · have hall := (hd.of_thread (R := Draft.Below) (fun d => ⟨List.prefix_refl _, List.prefix_refl _⟩)
      (fun h h' => ⟨h.1.trans h'.1, h.2.trans h'.2⟩) hpart).2
    obtain ⟨before, after, s₂, s₃, hrun, hbelow⟩ := hall _ (Statement.mem_children.2 ⟨t, ht, rfl⟩)
    exact ⟨s₂, s₃, before, after, covers_of_runs hrun, hbelow⟩

end Path

/-! ## Every statement -/

/-- A statement that compiles without a report has its arguments in the result, in each of the four
places, and so has each statement of a body that does. -/
theorem statements_accounted (t : Statement) (s s' : Scope) :
    (∀ r, Runs (Condition.compile t t.nested).run s r s' [] → ∃ j, r = some j ∧
      Condition.Covers s t s' j) ∧
    (∀ d d', Runs (Path.part (t, t.nested) d) s d' s' [] → Path.Covers s t d s' d') ∧
    (∀ r r', Runs (Path.stepPart (t, t.nested) r) s r' s' [] → ∃ fs, r' = r ++ fs ∧
      Path.Detail s t s' fs) ∧
    (∀ r, Runs (Path.constraint t t.nested).run s r s' [] → ∃ j, r = some j ∧
      Path.Constraint s t s' j) ∧
    (∀ body js, Runs (Condition.compileAll (Statement.children body)) s js s' [] →
      List.Forall₂ (fun t j => ∃ s₁ s₂, Condition.Covers s₁ t s₂ j) body js) ∧
    (∀ body js, Runs (Path.constraints (Statement.children body)) s js s' [] →
      List.Forall₂ (fun t j => ∃ s₁ s₂, Path.Constraint s₁ t s₂ j) body js) ∧
    ∀ body block r, Runs (Path.compile (Statement.children body) block) s r s' [] →
      ∃ d : Path.Draft, r = d.record ++ [("path", .arr d.steps)] ∧
        ∀ t ∈ body, ∃ s₁ s₂ before after, Path.Covers s₁ t before s₂ after ∧ after.Below d := by
  have hbody := t.mirrored_nested
  refine ⟨fun r h => ?_, fun d d' h => Path.covers_of_runs h, fun r r' h => Path.detail_of_runs h,
    fun r h => ?_, fun body js h => Condition.covers_of_runs_compileAll h,
    fun body js h => Path.constraints_of_runs h, fun body block r h => Path.covers_of_runs_compile h⟩
  · obtain ⟨j, rfl⟩ := (Condition.tries_compile t hbody).exists_of_runs h
    exact ⟨j, rfl, Condition.covers_of_runs h⟩
  · obtain ⟨j, rfl⟩ := (Path.tries_constraint t hbody).exists_of_runs h
    exact ⟨j, rfl, Path.constraint_of_runs h⟩

/-- A line of each kind: `pressure unrest >= 5`, `step $ally via ally_of
outbound npc hero`, `status alive` and `has_relationship rival with $ally`. -/
theorem statements_accounted_lines :
    let name (word : String) : Value := .name word .nowhere
    let line (word : String) (labels : List Value) (value : Value) : Statement :=
      .field word false labels value .nowhere
    let pressure : Statement := .predicate "pressure" [name "unrest"] .ge (.int 5) none .nowhere
    let step := line "step" [name "$ally", name "via", name "ally_of", name "outbound", name "npc"]
      (name "hero")
    let status := line "status" [] (name "alive")
    let rival := line "has_relationship" [name "rival", name "with"] (name "$ally")
    let ally : Record :=
      [textField "via" "ally_of", textField "direction" "outbound", textField "targetKind" "npc",
      textField "targetSubtype" "hero", textField "as" "$ally"]
    Condition.Covers .empty pressure .empty
      (.obj [textField "type" "pressure", textField "pressureId" "unrest", ("min", .num (.int 5))]) ∧
    Path.Covers .empty step ⟨[], []⟩ ⟨["ally"]⟩ ⟨[], [.obj ally]⟩ ∧
    (∃ fs, ally ++ [textField "targetStatus" "alive"] = ally ++ fs ∧
      Path.Detail .empty status .empty fs) ∧
    Path.Constraint .empty rival .empty
      (.obj [textField "type" "has_relationship", textField "kind" "rival",
        textField "with" "$ally"]) := by
  intro name line pressure step status rival ally
  refine ⟨?_, ?_, ?_, ?_⟩
  · obtain ⟨j, hj, h⟩ := (statements_accounted pressure .empty .empty).1 (some (.obj
      [textField "type" "pressure", textField "pressureId" "unrest", ("min", .num (.int 5))]))
      (runs_silent fun _ => rfl)
    cases hj
    exact h
  · exact (statements_accounted step .empty ⟨["ally"]⟩).2.1 ⟨[], []⟩ _ (runs_silent fun _ => rfl)
  · exact (statements_accounted status .empty .empty).2.2.1 ally _ (runs_silent fun _ => rfl)
  · obtain ⟨j, hj, h⟩ := (statements_accounted rival .empty .empty).2.2.2.1 (some (.obj
      [textField "type" "has_relationship", textField "kind" "rival", textField "with" "$ally"]))
      (runs_silent fun _ => rfl)
    cases hj
    exact h

end Worldbook
