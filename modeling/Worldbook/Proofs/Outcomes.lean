import Worldbook.Proofs.Provenance

/-!
# Where entries and reports come from

An item draws on the supply of its statement, and every item of a text is a statement
of it or of one of its containers. So all entries of a text and all reports about it
are from the supply of its statements, the numbers out of range apart.
-/

namespace Worldbook

open CompileM

variable {S : Supply}

namespace Item

/-! ## Blocks -/

theorem drawsOr_labelFields (c : Collection) {labels : List Value}
    (h : ∀ v ∈ labels, S.Offers v) (i : Nat) : DrawsOr S S.Makes (labelFields c i labels) := by
  induction labels generalizing i with
  | nil => exact drawsOr_pure Supply.makes_nil
  | cons label rest ih =>
    have hlabels := List.forall_mem_cons.1 h
    have hrest := ih hlabels.2 (i + 1)
    unfold labelFields
    split
    · next hfield =>
      have hreport :=
        draws_report (p := .tooManyLabels c.block (c.labelFields.filterMap id).length) (by simp)
          hlabels.1.span
      exact hreport.lift.bind fun _ _ => drawsOr_pure Supply.makes_nil
    · next field hfield =>
      split
      · exact hrest.bind fun fields hfields => drawsOr_pure (by simpa using hfields)
      · have hreport := draws_report (p := .labelNotText field label.describe) (by simp) hlabels.1.span
        refine hreport.lift.bind ?_
        intro _ _
        split
        · exact DrawsOr.bind (P := fun _ => True) drawsOr_failure fun _ _ => hrest
        · exact hrest

theorem draws_unlabelled (labels : Record) {place : String → Span}
    (hplace : ∀ key, S.span (place key)) {r : Record} (hr : S.Makes r) :
    Draws S S.Makes (unlabelled labels place r) := by
  induction r with
  | nil => exact draws_pure Supply.makes_nil
  | cons m r ih =>
    obtain ⟨key, value⟩ := m
    have hm := Supply.makes_cons.1 hr
    have hrest := ih hm.2
    unfold unlabelled
    split
    · next label hlabel =>
      split
      · exact draws_report_bind (by simp) (hplace key) hrest
      · exact hrest
    · exact hrest.bind fun more hmore => draws_pure (Supply.makes_cons.2 ⟨hm.1, hmore⟩)

theorem span_placeOf {body : List Statement} (hbody : ∀ s ∈ body, S.span s.span) {block : Span}
    (hblock : S.span block) (key : String) : S.span (placeOf body block key) := by
  unfold placeOf
  cases hfind : body.find? (·.keyword? == some key) with
  | none => exact hblock
  | some s => exact hbody s (List.mem_of_find?_eq_some hfind)

theorem drawsOr_blockRecord (c : Collection) {labels : List Value} (hlabels : ∀ v ∈ labels, S.Offers v)
    {body : List Statement} (hbody : ∀ t ∈ Statement.treeAll body, S.States t) {span : Span}
    (hspan : S.span span) : DrawsOr S S.Makes (blockRecord c labels body span) := by
  have hchildren := Statement.drawsOn_children body hbody
  have hplaces : ∀ s ∈ body, S.span s.span := fun s hs =>
    (hbody s (Statement.mem_treeAll hs s.mem_tree_self)).span
  refine (drawsOr_labelFields c hlabels 0).bind ?_
  intro front hfront
  refine (((Nested.drawsOn_ofBody hchildren).fields [] Supply.makes_nil).lift).bind ?_
  intro fields hfields
  refine (draws_unlabelled front (span_placeOf hplaces hspan) hfields).lift.bind ?_
  intro rest hrest
  have hrecord : S.Makes (front ++ rest) := Supply.makes_append.2 ⟨hfront, hrest⟩
  dsimp only
  split
  · exact drawsOr_pure hrecord
  · split
    · exact drawsOr_pure hrecord
    · exact drawsOr_reject (by simp) hspan

/-! ## Rows -/

theorem leadingText_offers {values : List Value} (h : ∀ v ∈ values, S.Offers v) :
    ∀ v ∈ (leadingText values).2, S.Offers v := by
  unfold leadingText
  split
  · split
    · exact (List.forall_mem_cons.1 h).2
    · exact h
  · exact h

theorem drawsOr_tagRow {values : List Value} (h : ∀ v ∈ values, S.Offers v) {span : Span}
    (hspan : S.span span) : DrawsOr S S.Makes (tagRow values span) := by
  unfold tagRow
  split
  · next tag category rarity rest =>
    have hrest : ∀ v ∈ (leadingText rest).2, S.Offers v :=
      leadingText_offers fun v hv => h v (by simp [hv])
    generalize leadingText rest = parts at hrest ⊢
    obtain ⟨description, rest⟩ := parts
    refine (drawsOr_rowText "tag" (h tag (by simp))).bind ?_
    intro tag _
    refine (drawsOr_rowText "category" (h category (by simp))).bind ?_
    intro category _
    refine (drawsOr_rowText "rarity" (h rarity (by simp))).bind ?_
    intro rarity _
    exact drawsOr_pairFields hrest hspan (by simp)
  · exact drawsOr_reject (by simp) hspan

theorem drawsOr_keyedRow (c : Collection) (idField : String) {values : List Value}
    (h : ∀ v ∈ values, S.Offers v) {span : Span} (hspan : S.span span) :
    DrawsOr S S.Makes (keyedRow c idField values span) := by
  unfold keyedRow
  split
  · exact drawsOr_reject (by simp) hspan
  · next id rest =>
    have hrest : ∀ v ∈ rest, S.Offers v := fun v hv => h v (by simp [hv])
    refine (drawsOr_rowText idField (h id (by simp))).bind ?_
    intro id _
    cases c.nameField with
    | none => exact drawsOr_pairFields hrest hspan (by simp)
    | some field => exact drawsOr_pairFields (leadingText_offers hrest) hspan (by simp)

theorem drawsOr_rowRecord (c : Collection) {values : List Value} (h : ∀ v ∈ values, S.Offers v)
    {span : Span} (hspan : S.span span) : DrawsOr S S.Makes (rowRecord c values span) := by
  unfold rowRecord
  split
  · exact drawsOr_tagRow h hspan
  · split
    · exact drawsOr_keyedRow c _ h hspan
    · exact drawsOr_pairFields h hspan Supply.makes_nil

/-! ## Items -/

theorem drawsOr_record {i : Item} (h : ∀ t ∈ i.statement.tree, S.States t) :
    DrawsOr S S.Makes i.record := by
  have hself : S.States i.statement := h _ i.statement.mem_tree_self
  unfold Item.record
  split
  · next labels body span _ hstatement =>
    rw [hstatement] at h hself
    exact drawsOr_blockRecord i.collection hself.values (fun t ht => h t (List.mem_cons_of_mem _ ht))
      hself.span
  · exact drawsOr_rowRecord i.collection (Selector.positional_offers hself) hself.span
  · exact drawsOr_relationship false hself
  · exact drawsOr_failure

theorem draws_compile {i : Item} (h : ∀ t ∈ i.statement.tree, S.States t) :
    Draws S (fun found => ∀ r, found = some r → S.Makes r) i.compile := by
  have hclear : Draws S (fun _ => True) (modify fun c => { c with scope := .empty } : CompileM PUnit) :=
    draws_of_silent fun _ => ⟨trivial, rfl⟩
  exact hclear.bind fun _ _ => drawsOr_record h

def OutcomeFrom (S : Supply) : Except Diagnostic Item → Prop
  | .ok i => ∀ t ∈ i.statement.tree, S.States t
  | .error d => S.Admits d

theorem unknown_ne (s : Statement) : unknown s ≠ .numberOutOfRange := by
  unfold unknown
  split <;> exact nofun

theorem outcomes_from {s : Statement} (h : ∀ t ∈ s.tree, S.States t) :
    ∀ o ∈ outcomes s, OutcomeFrom S o := by
  intro o ho
  have hself : S.States s := h s s.mem_tree_self
  cases comesTo_of_mem_outcomes ho with
  | item hi =>
    obtain rfl := (fits_of_ofStatement? hi).2
    exact h
  | unknown => exact Supply.admits_reported (unknown_ne s) hself.span
  | label hl => exact Supply.admits_reported (by simp) (hself.values _ hl).span
  | inside _ ht hi =>
    obtain rfl := (fits_of_inContainer? hi).2
    exact fun u hu => h u (List.mem_cons_of_mem _ (Statement.mem_treeAll ht hu))
  | foreign _ ht =>
    have hin := h _ (List.mem_cons_of_mem _ (Statement.mem_treeAll ht (Statement.mem_tree_self _)))
    exact Supply.admits_reported (by simp) hin.span

theorem mem_outcomes_from {ss : List Statement} (h : ∀ t ∈ Statement.treeAll ss, S.States t) :
    ∀ o ∈ ss.flatMap outcomes, OutcomeFrom S o := by
  intro o ho
  obtain ⟨s, hs, ho⟩ := List.mem_flatMap.1 ho
  exact outcomes_from (fun t ht => h t (Statement.mem_treeAll hs ht)) o ho

theorem items_from {ss : List Statement} (h : ∀ t ∈ Statement.treeAll ss, S.States t) :
    ∀ i ∈ items ss, ∀ t ∈ i.statement.tree, S.States t := by
  intro i hi
  obtain ⟨o, ho, heq⟩ := List.mem_filterMap.1 hi
  have hfrom := mem_outcomes_from h o ho
  cases o with
  | ok j =>
    cases heq
    exact hfrom
  | error d => cases heq

theorem reports_from {ss : List Statement} (h : ∀ t ∈ Statement.treeAll ss, S.States t) :
    ∀ d ∈ reports ss, S.Admits d := by
  intro d hd
  obtain ⟨o, ho, heq⟩ := List.mem_filterMap.1 hd
  have hfrom := mem_outcomes_from h o ho
  cases o with
  | ok i => cases heq
  | error e =>
    cases heq
    exact hfrom

end Item

/-! ## Texts -/

structure Entry.From (S : Supply) (e : Entry) : Prop where
  span : S.span e.span
  record : S.Makes e.record

theorem draws_compileItems {items : List Item} (h : ∀ i ∈ items, ∀ t ∈ i.statement.tree, S.States t)
    (seen : List Collection) :
    Draws S (fun es => ∀ e ∈ es, Entry.From S e) (compileItems seen items) := by
  induction items generalizing seen with
  | nil => exact draws_pure nofun
  | cons i rest ih =>
    have hitems := List.forall_mem_cons.1 h
    have hspan : S.span i.statement.span := (hitems.1 _ i.statement.mem_tree_self).span
    have hmore : ∀ {e : Entry}, e.From S → ∀ seen, Draws S (fun es => ∀ e ∈ es, Entry.From S e)
        (do return e :: (← compileItems seen rest)) := by
      intro e he seen
      exact (ih hitems.2 seen).bind fun es hes => draws_pure (List.forall_mem_cons.2 ⟨he, hes⟩)
    refine (Item.draws_compile hitems.1).bind ?_
    intro found hfound
    cases found with
    | none => exact ih hitems.2 seen
    | some record =>
      have hentry : Entry.From S ⟨i.collection, record, i.statement.span⟩ := ⟨hspan, hfound record rfl⟩
      dsimp only
      split
      · exact hmore hentry seen
      split
      · exact draws_report_bind (by simp) hspan (ih hitems.2 seen)
      · exact hmore hentry (i.collection :: seen)

/-- All that is compiled of some statements is from their supply, and so is all
that is reported, but for the numbers out of range, which are reported last. -/
theorem Compilation.ofStatements_from {ss : List Statement}
    (h : ∀ t ∈ Statement.treeAll ss, S.States t) : (∀ e ∈ (ofStatements ss).entries, e.From S) ∧
      ∃ ds, (∀ d ∈ ds, S.Admits d) ∧
      (ofStatements ss).diagnostics = ds ++
      (Statement.overflowsAll ss).map Problem.numberOutOfRange.reported := by
  have hrun := draws_compileItems (Item.items_from h) [] ⟨.empty, Item.reports ss⟩
  refine ⟨hrun.1, _, ?_, rfl⟩
  intro d hd
  cases hrun.2 d hd with
  | inl hd => exact Item.reports_from h d hd
  | inr hd => exact hd

end Worldbook
