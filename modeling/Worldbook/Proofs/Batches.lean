import Worldbook.Proofs.Concatenation
import Worldbook.Proofs.Omissions

/-!
# A batch and one long text

Two texts compiled as a batch give what they give as one text with a line end between them. A text
keeps the first record of a collection within itself and a batch does so again between its texts;
`firstsAfter_firstsAfter` says that the two together keep what one pass keeps.
-/

namespace Worldbook

/-! ## Keeping the first records twice -/

namespace Entry

def SameFilled (as bs : List Entry) : Prop :=
  ∀ c : Collection, c.isList = false → as.any (·.collection == c) = bs.any (·.collection == c)

theorem SameFilled.append {as bs : List Entry} (h : SameFilled as bs) (es : List Entry) :
    SameFilled (as ++ es) (bs ++ es) := by
  intro c hc
  rw [List.any_append, List.any_append, h c hc]

theorem SameFilled.repeats_eq {as bs : List Entry} (h : SameFilled as bs) (e : Entry) :
    repeats as e = repeats bs e := by
  unfold repeats
  cases hl : e.collection.isList with
  | true => rfl
  | false => rw [h _ hl]

theorem SameFilled.firstsAfter_eq {as bs : List Entry} (h : SameFilled as bs) (es : List Entry) :
    firstsAfter as es = firstsAfter bs es := by
  induction es generalizing as bs with
  | nil => rfl
  | cons e es ih => rw [firstsAfter_cons, firstsAfter_cons, h.repeats_eq, ih (h.append [e])]

theorem SameFilled.repeatsAfter_eq {as bs : List Entry} (h : SameFilled as bs) (es : List Entry) :
    repeatsAfter as es = repeatsAfter bs es := by
  induction es generalizing as bs with
  | nil => rfl
  | cons e es ih => rw [repeatsAfter_cons, repeatsAfter_cons, h.repeats_eq, ih (h.append [e])]

theorem sameFilled_of_repeats {as : List Entry} {e : Entry} (h : repeats as e = true) :
    SameFilled (as ++ [e]) as := by
  intro c hc
  rw [repeats, Bool.and_eq_true] at h
  rw [List.any_append, List.any_cons, List.any_nil, Bool.or_false]
  by_cases he : e.collection = c
  · rw [← he, h.2, Bool.true_or]
  · rw [beq_false_of_ne he, Bool.or_false]

theorem repeats_append_left {as : List Entry} {e : Entry} (h : repeats as e = true)
    (before : List Entry) : repeats (before ++ as) e = true := by
  rw [repeats, Bool.and_eq_true] at *
  rw [List.any_append, h.2, Bool.or_true]
  exact ⟨h.1, rfl⟩

theorem sameFilled_firstsAfter (es : List Entry) : SameFilled (firstsAfter [] es) es := by
  intro c hc
  have hfilter := filter_firstsAfter hc [] es
  rw [List.any_nil, if_neg Bool.false_ne_true] at hfilter
  have hnone : (firstsAfter [] es).filter (·.collection == c) = [] ↔
    es.filter (·.collection == c) = [] := by
    rw [hfilter]
    simp
  rw [List.filter_eq_nil_iff, List.filter_eq_nil_iff, ← List.any_eq_false, ← List.any_eq_false] at hnone
  rw [← Bool.not_inj_iff, Bool.eq_iff_iff, Bool.not_eq_true', Bool.not_eq_true', hnone]

theorem repeatsAfter_append (before es fs : List Entry) :
    repeatsAfter before (es ++ fs) = repeatsAfter before es ++ repeatsAfter (before ++ es) fs := by
  induction es generalizing before with
  | nil => simp
  | cons e es ih =>
    simp only [List.cons_append, repeatsAfter_cons, ih, List.append_assoc, List.nil_append]

/-- To keep the first records of a list by itself, and of these what nothing
before repeats, is to do both at once; each entry is left out once. -/
theorem firstsAfter_firstsAfter (before own es : List Entry) :
    firstsAfter (before ++ own) (firstsAfter own es) = firstsAfter (before ++ own) es ∧
      (repeatsAfter (before ++ own) es).Perm
        (repeatsAfter own es ++ repeatsAfter (before ++ own) (firstsAfter own es)) := by
  induction es generalizing own with
  | nil => exact ⟨rfl, .nil⟩
  | cons e es ih =>
    obtain ⟨hfirsts, hrepeats⟩ := ih (own ++ [e])
    rw [← List.append_assoc] at hfirsts hrepeats
    rw [firstsAfter_cons own, firstsAfter_cons _ e es, repeatsAfter_cons own, repeatsAfter_cons _ e es]
    cases hr : repeats own e with
    | true =>
      have hsame := sameFilled_of_repeats (repeats_append_left hr before)
      rw [hsame.firstsAfter_eq] at hfirsts
      rw [hsame.repeatsAfter_eq (firstsAfter _ _)] at hrepeats
      simp only [repeats_append_left hr before, if_true, List.nil_append, List.cons_append]
      exact ⟨hfirsts, hrepeats.cons e⟩
    | false =>
      simp only [Bool.false_eq_true, if_false, List.nil_append, List.singleton_append, firstsAfter_cons,
        repeatsAfter_cons, hfirsts, true_and]
      refine (hrepeats.append_left _).trans ?_
      rw [← List.append_assoc, ← List.append_assoc]
      exact List.perm_append_comm.append_right _

theorem firstsAfter_idem (es : List Entry) :
    firstsAfter [] (firstsAfter [] es) = firstsAfter [] es ∧ repeatsAfter
    [] (firstsAfter [] es) = [] := by
  obtain ⟨hfirsts, hrepeats⟩ := firstsAfter_firstsAfter [] [] es
  have hlength := hrepeats.length_eq
  rw [List.length_append, List.append_nil] at hlength
  exact ⟨hfirsts, List.length_eq_zero_iff.1 (by omega)⟩

/-- What a batch keeps of two lists that were filtered each by itself is what
one pass over both keeps. -/
theorem firstsAfter_batch (es fs : List Entry) :
    firstsAfter [] (firstsAfter [] es ++ firstsAfter [] fs) = firstsAfter [] (es ++ fs) ∧
      (repeatsAfter [] (es ++ fs)).Perm (repeatsAfter [] es ++
        (repeatsAfter [] fs ++ repeatsAfter (firstsAfter [] es) (firstsAfter [] fs))) := by
  obtain ⟨hfirsts, hrepeats⟩ := firstsAfter_firstsAfter es [] fs
  have hsame := sameFilled_firstsAfter es
  rw [List.append_nil] at hfirsts hrepeats
  rw [firstsAfter_append, firstsAfter_append, repeatsAfter_append, (firstsAfter_idem es).1,
    List.nil_append, List.nil_append, hsame.firstsAfter_eq, hsame.repeatsAfter_eq, hfirsts]
  exact ⟨rfl, hrepeats.append_left _⟩

end Entry

/-! ## One text of both -/

namespace Item

theorem items_append (ss ts : List Statement) : items (ss ++ ts) = items ss ++ items ts := by
  rw [items, List.flatMap_append, List.filterMap_append, items, items]

theorem reports_append (ss ts : List Statement) : reports (ss ++ ts) = reports ss ++ reports ts := by
  rw [reports, List.flatMap_append, List.filterMap_append, reports, reports]

theorem entries_append (ss ts : List Statement) : entries (ss ++ ts) = entries ss ++ entries ts := by
  rw [entries, items_append, List.filterMap_append, entries, entries]

end Item

theorem Statement.overflowsAll_append (ss ts : List Statement) :
    overflowsAll (ss ++ ts) = overflowsAll ss ++ overflowsAll ts := by
  induction ss with
  | nil => rfl
  | cons s ss ih => rw [List.cons_append, overflowsAll, ih, overflowsAll, List.append_assoc]

namespace Compilation

theorem config_of_content {c d : Compilation}
    (h : c.entries.map Entry.content = d.entries.map Entry.content) : c.config = d.config := by
  have hrecords (e : Compilation) (key : String) :
      (e.entries.filter (·.collection.key == key)).map (Json.obj ·.record) =
        ((e.entries.map Entry.content).filter (·.1.key == key)).map (Json.obj ·.2) := by
    rw [List.filter_map, List.map_map]
    rfl
  simp only [config, collectionValue?, hrecords, h]

theorem diagnostics_merge_perm (c d : Compilation) :
    (merge [] [c, d]).diagnostics.Perm (c.reportedAfter [] ++ d.reportedAfter c.entries) := by
  rw [merge_eq fills_nil]
  simp only [groups, List.flatten_cons, List.flatten_nil, List.append_nil, List.nil_append]
  exact (List.mergeSort_perm ..).append (List.mergeSort_perm ..)

/-- Statements compiled at once and in two parts that are merged. -/
theorem ofStatements_append (ss ts : List Statement) :
    (ofStatements (ss ++ ts)).entries = (merge [] [ofStatements ss, ofStatements ts]).entries ∧
      (ofStatements (ss ++ ts)).diagnostics.Perm (merge [] [ofStatements ss,
        ofStatements ts]).diagnostics := by
  obtain ⟨hentries, hreports⟩ := ofStatements_entries (ss ++ ts)
  obtain ⟨hentries₁, hreports₁⟩ := ofStatements_entries ss
  obtain ⟨hentries₂, hreports₂⟩ := ofStatements_entries ts
  obtain ⟨hfirsts, hrepeats⟩ := Entry.firstsAfter_batch (Item.entries ss) (Item.entries ts)
  constructor
  · rw [merge_eq fills_nil, hentries, Item.entries_append, ← hfirsts, ← hentries₁, ← hentries₂]
    simp only [List.flatMap_cons, List.flatMap_nil, List.append_nil]
  · refine hreports.trans (.trans ?_ (diagnostics_merge_perm ..).symm)
    have hparts :=
      (hreports₁.append_right
        ((Entry.repeatsAfter [] (ofStatements ss).entries).map Entry.duplicate)).append
      (hreports₂.append_right
        ((Entry.repeatsAfter (ofStatements ss).entries (ofStatements ts).entries).map Entry.duplicate))
    refine .trans ?_ hparts.symm
    rw [hentries₁, hentries₂, (Entry.firstsAfter_idem _).2]
    have hduplicates := hrepeats.map Entry.duplicate
    simp only [Item.allReports, Item.items_append, Item.reports_append, Item.entries_append,
      Statement.overflowsAll_append, List.map_append, List.flatMap_append] at hduplicates ⊢
    classical
    rw [List.perm_iff_count] at hduplicates ⊢
    intro d
    have hcount := hduplicates d
    simp only [List.count_append, List.map_nil, List.count_nil] at hcount ⊢
    omega

end Compilation

theorem compileFiles_pair {f₁ f₂ : FileId} {t₁ t₂ : String} {ss₁ ss₂ : List Statement}
    (h₁ : parse f₁ t₁ = .ok ss₁) (h₂ : parse f₂ t₂ = .ok ss₂) :
    compileFiles [(f₁, t₁), (f₂, t₂)] = .merge [] [.ofStatements ss₁, .ofStatements ss₂] := by
  simp only [compileFiles, List.map_cons, List.map_nil, compile, h₁, h₂]

/-- Two texts compiled as a batch, and as one text with a line end between
them, have the same configuration, the same records in order and the same
reports, places apart. The long text holds the statements of both, each moved
to its place, and no statement sees a binding or a report of another. -/
theorem compile_append {f₁ f₂ : FileId} {t₁ t₂ : String} {ss₁ ss₂ : List Statement}
    (h₁ : parse f₁ t₁ = .ok ss₁) (h₂ : parse f₂ t₂ = .ok ss₂) (file : FileId) :
    let long := compile file (t₁ ++ "\n" ++ t₂)
    let batch := compileFiles [(f₁, t₁), (f₂, t₂)]
    long.config = batch.config ∧
    long.entries.map Entry.content = batch.entries.map Entry.content ∧
    (long.diagnostics.map Diagnostic.content).Perm (batch.diagnostics.map Diagnostic.content) ∧
    parse file (t₁ ++ "\n" ++ t₂) =
      .ok (ss₁.map (·.relocate (Move.before file t₂).span) ++
        ss₂.map (·.relocate (Move.behind file t₁).span)) ∧
    ∀ ss, ∀ i ∈ Item.items ss, ∀ context,
      (i.compile.run context).1 = (i.compile.run ⟨.empty, []⟩).1 ∧
      (i.compile.run context).2.diagnostics = context.diagnostics ++
      (i.compile.run ⟨.empty, []⟩).2.diagnostics := by
  intro long batch
  have hparse := parse_append h₁ h₂ file
  have hlong : long.erased = (Compilation.ofStatements (ss₁ ++ ss₂)).erased := by
    have herased (g : Span → Span) : Statement.erased ∘ (·.relocate g) = Statement.erased :=
      funext fun s => s.relocate_relocate g _
    simp only [long, compile, hparse]
    rw [← Compilation.ofStatements_erased, List.map_append, List.map_map, List.map_map,
      herased, herased, ← List.map_append, Compilation.ofStatements_erased]
  obtain ⟨hentries, hreports⟩ := Compilation.content_of_erased_eq hlong
  obtain ⟨hentries', hreports'⟩ := Compilation.ofStatements_append ss₁ ss₂
  rw [← compileFiles_pair h₁ h₂] at hentries' hreports'
  have hsame : long.entries.map Entry.content = batch.entries.map Entry.content := by
    rw [hentries, hentries']
  refine ⟨Compilation.config_of_content hsame, hsame, ?_, hparse, ?_⟩
  · rw [hreports]
    exact hreports'.map _
  · rintro ss i hi ⟨scope, reports⟩
    obtain ⟨s', hrun, -⟩ := Item.runs_compile (Item.fits_of_mem_items hi) scope
    rw [hrun reports]
    exact ⟨rfl, rfl⟩

theorem exists_parse_of_isOk {file : FileId} {text : String} (h : (parse file text).isOk = true) :
    ∃ ss, parse file text = .ok ss := by
  cases hp : parse file text with
  | error e => rw [hp] at h; cases h
  | ok ss => exact ⟨ss, rfl⟩

/-- A single-record collection filled in both texts, the first of which ends within a comment. -/
theorem compile_append_repeated_config :
    let first := "ui_config do\n  theme dark\nend # first"
    let second := "ui_config do theme light end; culture elves \"Elves\""
    ∃ ss₁ ss₂, parse 0 first = .ok ss₁ ∧ parse 1 second = .ok ss₂ ∧
      (compile 7 (first ++ "\n" ++ second)).config = (compileFiles [(0, first), (1, second)]).config ∧
      parse 7 (first ++ "\n" ++ second) = .ok
        (ss₁.map (·.relocate (Move.before 7 second).span) ++
          ss₂.map (·.relocate (Move.behind 7 first).span)) := by
  intro first second
  obtain ⟨ss₁, h₁⟩ : ∃ ss, parse 0 first = .ok ss := exists_parse_of_isOk (by decide +kernel)
  obtain ⟨ss₂, h₂⟩ : ∃ ss, parse 1 second = .ok ss := exists_parse_of_isOk (by decide +kernel)
  obtain ⟨hconfig, -, -, hparse, -⟩ := compile_append h₁ h₂ 7
  exact ⟨ss₁, ss₂, h₁, h₂, hconfig, hparse⟩

end Worldbook
