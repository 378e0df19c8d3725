import Worldbook.Proofs.Identity

/-!
# Labels and the fields they name

The id and the name of an item may stand in front of its fields, as the labels of a block or the
leading values of a row, and may be given again among the fields. In a block the label stands, and a
body that ends up with another value is an error. In a row the last pair stands, with a warning.
The main result is `labels_stand`.
-/

namespace Worldbook

open CompileM

/-! ## Fields set one after the other -/

namespace Record

theorem setAll_cons (r s : Record) (m : String × Json) : setAll r (m :: s) = setAll (r.set m.1 m.2) s :=
  rfl

/-- Of fields set one after the other the last stands, and those that are not set stay. -/
theorem get?_setAll (r s : Record) (key : String) :
    (setAll r s).get? key = ((ofPairs s).get? key).or (r.get? key) := by
  induction s generalizing r with
  | nil => rfl
  | cons m s ih =>
    have hone : set [] m.1 m.2 = [m] := rfl
    rw [ofPairs, setAll_cons, setAll_cons, ih, ih (set [] m.1 m.2), hone, get?_set, get?_cons,
      Option.or_assoc]
    split <;> rfl

theorem mem_keys_of_ofPairs {s : Record} {key : String} {v : Json} (h : (ofPairs s).get? key = some v) :
    key ∈ s.keys := by
  induction s with
  | nil => cases h
  | cons m s ih =>
    rw [ofPairs, setAll_cons, get?_setAll] at h
    rcases Option.or_eq_some_iff.1 h with h | ⟨-, h⟩
    · exact List.mem_cons_of_mem _ (ih h)
    · have hkey : key = m.1 := by simpa using mem_keys_of_get? (r := [m]) h
      exact hkey ▸ List.mem_cons_self ..

end Record

def Value.assigned (scope : Scope) (pairs : List (String × Value)) : Record :=
  pairs.map fun p => (p.1, p.2.underKey scope p.1)

def IsRepeat (key : String) (d : Diagnostic) : Prop :=
  ∃ span, d = (Problem.duplicateKey key).reported span

/-- Pairs are set in order, and each key that was there before is reported. -/
theorem pairs_of_runs_setPairs {vs : List Value} {r r' : Record} {s s' : Scope} {new : List Diagnostic}
    (h : Runs (setPairs vs r).run s (some r') s' new) (heven : vs.length % 2 = 0) :
    ∃ pairs, Value.pairs? vs = some pairs ∧ r' = r.setAll (Value.assigned s pairs) ∧
      ∀ key ∈ (Value.assigned s pairs).keys, key ∈ r.keys → ∃ d ∈ new, IsRepeat key d := by
  fun_induction setPairs vs r generalizing s new with
  | case1 name value rest r hname => exact absurd h not_runs_reject
  | case2 name value rest r word hword ih =>
    obtain ⟨more, hrest, rfl⟩ := Runs.of_pair (fun r => (tries_setPairs rest r).onlyAdds) h
    have hmore : rest.length % 2 = 0 := by
      rw [List.length_cons, List.length_cons] at heven
      omega
    obtain ⟨pairs, hpairs, hr, hrepeats⟩ := ih _ hrest hmore
    refine ⟨(word, value) :: pairs, by simp [Value.pairs?, hword, hpairs], hr, fun key hkey hmem => ?_⟩
    by_cases hkw : key = word
    · subst hkw
      rw [if_pos (Record.has_iff.2 hmem)]
      exact ⟨_, by simp, name.span, rfl⟩
    · have hlater : key ∈ (Value.assigned s pairs).keys := (List.mem_cons.1 hkey).resolve_left hkw
      obtain ⟨d, hd, hrepeat⟩ := hrepeats key hlater (Record.mem_keys_set hmem)
      exact ⟨d, by simp [hd], hrepeat⟩
  | case3 vs r hvs =>
    cases Runs.of_pure h
    obtain rfl : vs = [] := by
      rcases vs with _ | ⟨v, _ | ⟨w, vs⟩⟩
      · rfl
      · cases heven
      · exact absurd rfl (hvs v w vs)
    exact ⟨[], rfl, rfl, fun key hkey => absurd hkey List.not_mem_nil⟩

theorem pairs_of_runs_pairFields {vs : List Value} {span : Span} {r r' : Record} {s s' : Scope}
    {new : List Diagnostic} (h : Runs (pairFields vs span r).run s (some r') s' new) :
    ∃ pairs, Value.pairs? vs = some pairs ∧ r' = r.setAll (Value.assigned s pairs) ∧
      ∀ key ∈ (Value.assigned s pairs).keys, key ∈ r.keys → ∃ d ∈ new, IsRepeat key d := by
  unfold pairFields at h
  split at h
  · exact absurd h not_runs_reject
  · next hodd => exact pairs_of_runs_setPairs h (by omega)

/-! ## What an item says twice -/

theorem Collection.isSome_idField : ∀ c ∈ all, c.kind = .keyed → c.idField.isSome = true := by decide

namespace Item

/-- The field of a label; none where the collection names none or the label is no text. -/
def headingField (field text : Option String) : Record :=
  (do return textField (← field) (← text)).toList

/-- The texts that stand in front of the fields: the first two labels of a
block, or the first value of a row and the string behind it. -/
def leads (i : Item) : Option String × Option String :=
  match i.form, i.statement with
  | .block, .block _ _ labels _ _ => (labels[0]?.bind Value.text?, labels[1]?.bind Value.text?)
  | .row, s => (s.positional[0]?.bind Value.text?, (leadingText (s.positional.drop 1)).1)
  | _, _ => (none, none)

def heading (i : Item) : Record :=
  headingField i.collection.idField i.leads.1 ++ headingField i.collection.nameField i.leads.2

def behindLabels (c : Collection) (values : List Value) : List Value :=
  if c.block = "tag" then (leadingText (values.drop 3)).2
  else if c.nameField.isSome then (leadingText (values.drop 1)).2
  else values.drop 1

/-- The fields that are given behind the labels: those of the body of a
block, or of the pairs of a row. -/
def explicit (i : Item) : Record :=
  match i.form, i.statement with
  | .block, .block _ _ _ body _ => ((Body.fields (Statement.children body) []).run ⟨.empty, []⟩).1
  | .row, s =>
    .ofPairs (Value.assigned .empty ((Value.pairs? (behindLabels i.collection s.positional)).getD []))
  | _, _ => []

/-! ## Blocks -/

section
variable {c : Collection} {labels : List Value} {r : Record} {s s' : Scope} {new : List Diagnostic}

theorem eq_nil_of_runs_report {p : Problem} {span : Span}
    (h : Runs (do report p span; return [] : Attempt Record).run s (some r) s' new) :
    s' = s ∧ r = [] := by
  obtain ⟨_, t, first, more, hreport, h, -⟩ := h.split (appends_report p span).lift fun _ =>
    onlyAdds_pure []
  obtain ⟨-, rfl, -⟩ := (runs_report p span s).lift.eq hreport
  obtain ⟨hr, rfl, -⟩ := (runs_pure (some []) s).eq h
  exact ⟨rfl, (Option.some.inj hr).symm⟩

theorem runs_labelFields_two (h : Runs (labelFields c 2 labels).run s (some r) s' new) :
    s' = s ∧ r = [] := by
  cases labels with
  | nil =>
    obtain ⟨hr, rfl, -⟩ := (runs_pure (some []) s).eq h
    exact ⟨rfl, (Option.some.inj hr).symm⟩
  | cons label labels => exact eq_nil_of_runs_report h

theorem runs_labelFields_one (h : Runs (labelFields c 1 labels).run s (some r) s' new) :
    s' = s ∧ r = headingField c.nameField (labels[0]?.bind Value.text?) := by
  cases labels with
  | nil =>
    obtain ⟨hr, rfl, -⟩ := (runs_pure (some []) s).eq h
    exact ⟨rfl, by cases hr; cases c.nameField <;> rfl⟩
  | cons label labels =>
    have hfield : c.labelFields[1]?.join = c.nameField := by simp [Collection.labelFields]
    simp only [labelFields, hfield, List.getElem?_cons_zero, Option.bind_some] at h ⊢
    cases hn : c.nameField with
    | none =>
      simp only [hn] at h
      exact eq_nil_of_runs_report h
    | some field =>
      simp only [hn] at h
      cases ht : label.text? with
      | some text =>
        simp only [ht] at h
        obtain ⟨rest, t, first, more, hrest, h, -⟩ :=
          h.split (tries_labelFields c 2 labels).onlyAdds fun _ => onlyAdds_pure _
        obtain ⟨rfl, rfl⟩ := runs_labelFields_two hrest
        obtain ⟨hr, rfl, -⟩ := (runs_pure (some [textField field text]) t).eq h
        exact ⟨rfl, (Option.some.inj hr).symm⟩
      | none =>
        simp only [ht, Nat.one_ne_zero, if_false] at h
        obtain ⟨_, t, first, more, hreport, h, -⟩ :=
          h.split (mirrors_report _ _ _ rfl).lift.onlyAdds fun _ =>
            (tries_labelFields c 2 labels).onlyAdds
        obtain ⟨-, rfl, -⟩ := (runs_report _ _ s).lift.eq hreport
        obtain ⟨rfl, rfl⟩ := runs_labelFields_two h
        exact ⟨rfl, rfl⟩

theorem runs_labelFields {field : String} (hid : c.idField = some field)
    (h : Runs (labelFields c 0 labels).run s (some r) s' new) :
    s' = s ∧ r = headingField c.idField (labels[0]?.bind Value.text?) ++
      headingField c.nameField (labels[1]?.bind Value.text?) := by
  cases labels with
  | nil =>
    obtain ⟨hr, rfl, -⟩ := (runs_pure (some []) s).eq h
    exact ⟨rfl, by cases hr; cases c.idField <;> cases c.nameField <;> rfl⟩
  | cons label labels =>
    have hfield : c.labelFields[0]?.join = some field := by simp [Collection.labelFields, hid]
    simp only [labelFields, hfield] at h
    rw [List.getElem?_cons_zero, Option.bind_some, List.getElem?_cons_succ, hid]
    cases ht : label.text? with
    | some text =>
      simp only [ht] at h
      obtain ⟨rest, t, first, more, hrest, h, -⟩ :=
        h.split (tries_labelFields c 1 labels).onlyAdds fun _ => onlyAdds_pure _
      obtain ⟨rfl, rfl⟩ := runs_labelFields_one hrest
      obtain ⟨hr, rfl, -⟩ := (runs_pure (some (textField field text :: _)) t).eq h
      exact ⟨rfl, (Option.some.inj hr).symm⟩
    | none =>
      simp only [ht, if_true] at h
      rw [← bind_assoc] at h
      have hreject :=
        tries_reject (f := id) (α := Unit) (p := .labelNotText field label.describe) rfl label.span
      obtain ⟨-, t, first, more, h, -, -⟩ :=
        h.split hreject.onlyAdds fun _ => (tries_labelFields c 1 labels).onlyAdds
      exact absurd h not_runs_reject

end

/-- A field of the body that differs from the label is reported. -/
theorem runs_unlabelled (front : Record) (place : String → Span) (fields : Record) (s : Scope) :
    ∃ rest new, Runs (unlabelled front place fields) s rest s new ∧ ∀ key v label, (key, v) ∈ fields →
      front.get? key = some label → v.same label = false →
      (Problem.labelMismatch key v label).reported (place key) ∈ new := by
  induction fields with
  | nil => exact ⟨[], [], runs_pure _ _, fun _ _ _ h => absurd h List.not_mem_nil⟩
  | cons m fields ih =>
    obtain ⟨key, value⟩ := m
    obtain ⟨rest, new, hrun, hreports⟩ := ih
    unfold unlabelled
    cases hfront : front.get? key with
    | none =>
      refine ⟨(key, value) :: rest, new ++ [], hrun.bind (runs_pure _ _),
        fun k v label hmem hk hv => ?_⟩
      rw [List.append_nil]
      rcases List.mem_cons.1 hmem with heq | hmem
      · cases heq
        rw [hfront] at hk
        cases hk
      · exact hreports k v label hmem hk hv
    | some label =>
      cases hsame : value.same label with
      | true =>
        simp only [hsame, Bool.not_true, Bool.false_eq_true, if_false]
        refine ⟨rest, new, hrun, fun k v label' hmem hk hv => ?_⟩
        rcases List.mem_cons.1 hmem with heq | hmem
        · cases heq
          rw [hfront] at hk
          cases hk
          rw [hsame] at hv
          cases hv
        · exact hreports k v label' hmem hk hv
      | false =>
        simp only [hsame, Bool.not_false, if_true]
        refine ⟨rest, _ ++ new, (runs_report (.labelMismatch key value label) (place key) s).bind hrun,
          fun k v label' hmem hk hv => ?_⟩
        rcases List.mem_cons.1 hmem with heq | hmem
        · cases heq
          rw [hfront] at hk
          cases hk
          exact List.mem_append_left _ (List.mem_singleton_self _)
        · exact List.mem_append_right _ (hreports k v label' hmem hk hv)

/-- In a block the labels stand in front, and a field that ends up different
from its label is reported. -/
theorem labels_of_runs_blockRecord {c : Collection} {field : String} (hc : c.requiredId? = some field)
    {labels : List Value} {body : List Statement} {span : Span} {r : Record} {s' : Scope}
    {new : List Diagnostic} (h : Runs (blockRecord c labels body span).run .empty (some r) s' new) :
    ∃ rest, r = headingField c.idField (labels[0]?.bind Value.text?) ++
        headingField c.nameField (labels[1]?.bind Value.text?) ++ rest ∧
      ∀ key v label, ((Body.fields (Statement.children body) []).run ⟨.empty, []⟩).1.get? key = some v →
        (headingField c.idField (labels[0]?.bind Value.text?) ++
          headingField c.nameField (labels[1]?.bind Value.text?)).get? key = some label →
            v.same label = false →
        ∃ place, (Problem.labelMismatch key v label).reported place ∈ new := by
  obtain ⟨front, fields, rest, s₁, s₂, first, second, third, hfront, hbody, hrest, rfl, -, rfl⟩ :=
    Runs.of_blockRecord hc h
  obtain ⟨rfl, rfl⟩ := runs_labelFields (idField_of_requiredId? hc) hfront
  refine ⟨rest, rfl, fun key v label hv hlabel hdiffers => ?_⟩
  have hexplicit : ((Body.fields (Statement.children body) []).run ⟨.empty, []⟩).1 = fields :=
    congrArg Prod.fst (hbody [])
  rw [hexplicit] at hv
  obtain ⟨kept, found, hkept, hfound⟩ := runs_unlabelled _ (placeOf body span) fields s₂
  obtain ⟨-, -, rfl⟩ := hkept.eq hrest
  have hreport := hfound key v label (Record.mem_of_get? hv) hlabel hdiffers
  exact ⟨_, List.mem_append_right _ (List.mem_append_right _ hreport)⟩

/-! ## Rows -/

/-- The record is one with the labels on which pairs are set, each key that
it has being reported. -/
def SetOn (heading : Record) (values : List Value) (r : Record) (new : List Diagnostic) : Prop :=
  ∃ start pairs, Value.pairs? values = some pairs ∧
    r = Record.setAll start (Value.assigned .empty pairs) ∧
    (∀ key label, heading.get? key = some label → Record.get? start key = some label) ∧
    ∀ key ∈ (Value.assigned .empty pairs).keys, key ∈ Record.keys start → ∃ d ∈ new, IsRepeat key d

theorem setOn_of_runs {heading start : Record} {values : List Value} {span : Span}
    {r : Record} {s' : Scope} {new : List Diagnostic}
    (h : Runs (pairFields values span start).run .empty (some r) s' new)
    (hstart : ∀ key label, heading.get? key = some label → start.get? key = some label) :
    SetOn heading values r new := by
  obtain ⟨pairs, hpairs, hr, hrepeats⟩ := pairs_of_runs_pairFields h
  exact ⟨start, pairs, hpairs, hr, hstart, hrepeats⟩

/-- The pairs of a row are set on its labels. -/
theorem setOn_of_runs_rowRecord {c : Collection} (hc : c ∈ Collection.all) {field : String}
    (hid : c.idField = some field) {values : List Value} {span : Span} {r : Record} {s' : Scope}
    {new : List Diagnostic} (h : Runs (rowRecord c values span).run .empty (some r) s' new) :
    SetOn (headingField c.idField (values[0]?.bind Value.text?) ++
      headingField c.nameField (leadingText (values.drop 1)).1) (behindLabels c values) r new := by
  unfold rowRecord at h
  split at h
  · next htag =>
    have htags : ∀ c ∈ Collection.all, c.block = "tag" → c.idField = some "tag" ∧
      c.nameField = none := by decide
    obtain ⟨htagField, hname⟩ := htags c hc htag
    obtain ⟨tag, category, rarity, rest, id, kind, rank, rfl, ht, hset⟩ := Runs.of_tagRow h
    have hbehind : behindLabels c (tag :: category :: rarity :: rest) = (leadingText rest).2 :=
      if_pos htag
    rw [hbehind, List.getElem?_cons_zero, Option.bind_some, ht]
    refine setOn_of_runs hset fun key label hlabel => ?_
    rw [htagField, hname] at hlabel
    have hone : Record.get? [textField "tag" id] key = some label := hlabel
    exact (Record.get?_append [textField "tag" id] _ key).trans (by rw [hone, Option.some_or])
  · next htag =>
    rw [hid] at h ⊢
    obtain ⟨v, rest, id, name, pairs, rfl, ht, heq, hset⟩ := Runs.of_keyedRow h
    rw [List.getElem?_cons_zero, Option.bind_some, ht, List.drop_one, List.tail_cons]
    cases hn : c.nameField with
    | none =>
      rw [hn] at heq
      obtain ⟨rfl, rfl⟩ := Prod.mk.inj heq
      have hbehind : behindLabels c (v :: pairs) = pairs := by simp [behindLabels, htag, hn]
      rw [hbehind]
      exact setOn_of_runs hset fun key label hlabel => hlabel
    | some nameField =>
      rw [hn] at heq
      obtain ⟨rfl, rfl⟩ := Prod.mk.inj heq
      have hbehind : behindLabels c (v :: rest) = (leadingText rest).2 := by
        simp [behindLabels, htag, hn]
      rw [hbehind]
      refine setOn_of_runs hset fun key label hlabel => ?_
      cases hname : (leadingText rest).1 with
      | none => simpa [headingField, optionalText, hname] using hlabel
      | some name => simpa [headingField, optionalText, hname] using hlabel

/-! ## Items -/

/-- What the fields behind the labels make of them: in a block the labels stand
and a difference is an error, in a row the last pair stands and is a warning. -/
theorem record_of_heading {i : Item} (hfits : i.Fits) (hplaced : i.Placed)
    (hkeyed : i.collection.kind = .keyed) {r : Record} {s' : Scope} {new : List Diagnostic}
    (h : Runs i.record.run .empty (some r) s' new) {field : String} {label : Json}
    (hlabel : i.heading.get? field = some label) :
    (i.form = .block → r.get? field = some label ∧ ∀ v, i.explicit.get? field = some v →
      v.same label = false →
      ∃ place, (Problem.labelMismatch field v label).reported place ∈ new) ∧
    (i.form = .row → r.get? field = some ((i.explicit.get? field).getD label) ∧
      ∀ v, i.explicit.get? field = some v →
      ∃ place, (Problem.duplicateKey field).reported place ∈ new) := by
  obtain ⟨idField, hid⟩ : ∃ idField, i.collection.idField = some idField :=
    Option.isSome_iff_exists.1 (i.collection.isSome_idField hplaced.1 hkeyed)
  obtain ⟨form, c, statement⟩ := i
  refine ⟨?_, ?_⟩
  · rintro rfl
    cases statement with
    | block name quoted labels body span =>
      have hrequired : c.requiredId? = some idField := (if_pos hkeyed).trans hid
      obtain ⟨rest, rfl, hreports⟩ := labels_of_runs_blockRecord hrequired h
      refine ⟨?_, fun v hv hdiffers => hreports field v label hv hlabel hdiffers⟩
      rw [Record.get?_append]
      exact Option.or_eq_some_iff.2 (.inl hlabel)
    | _ => exact hfits.elim
  · rintro rfl
    obtain ⟨start, pairs, hpairs, rfl, hstart, hrepeats⟩ := setOn_of_runs_rowRecord hplaced.1 hid h
    have hexplicit : explicit ⟨.row, c, statement⟩ = .ofPairs (Value.assigned .empty pairs) := by
      simp only [explicit, hpairs, Option.getD_some]
    have hget := hstart field label hlabel
    rw [hexplicit, Record.get?_setAll, hget]
    refine ⟨?_, fun v hv => ?_⟩
    · cases (Record.ofPairs (Value.assigned .empty pairs)).get? field <;> rfl
    · obtain ⟨d, hd, place, rfl⟩ :=
        hrepeats field (Record.mem_keys_of_ofPairs hv) (Record.mem_keys_of_get? hget)
      exact ⟨place, hd⟩

end Item

theorem mem_firstsAfter_of_isList {e : Entry} (hl : e.collection.isList = true) {before es : List Entry}
    (he : e ∈ es) : e ∈ Entry.firstsAfter before es := by
  induction es generalizing before with
  | nil => cases he
  | cons f es ih =>
    rw [Entry.firstsAfter_cons]
    rcases List.mem_cons.1 he with rfl | he
    · have hrepeats : Entry.repeats before e = false := by rw [Entry.repeats, hl]; rfl
      rw [hrepeats]
      exact List.mem_append_left _ (List.mem_singleton_self _)
    · exact List.mem_append_right _ (ih he)

/-- An item of a keyed collection that is compiled to a record. The id and the name that
stand in front of a block are those of the record, and a body that ends up with another
value is an error. In front of a row they are those of the record unless a pair gives
another: then that is the value, and a warning says that the key is given again. -/
theorem labels_stand {ss : List Statement} {i : Item} (hi : i ∈ Item.items ss)
    (hkeyed : i.collection.kind = .keyed) {e : Entry} (he : i.entry? = some e) {field : String}
    {label : Json} (hlabel : i.heading.get? field = some label) :
    let compiled := Compilation.ofStatements ss
    e ∈ compiled.entries ∧ ((i.form = .block ∧ e.record.get? field = some label ∧
        ∀ v, i.explicit.get? field = some v → v.same label = false →
          ∃ place, (Problem.labelMismatch field v label).reported place ∈ compiled.diagnostics) ∨
      (i.form = .row ∧ e.record.get? field = some ((i.explicit.get? field).getD label) ∧
        ∀ v, i.explicit.get? field = some v →
          ∃ place, (Problem.duplicateKey field).reported place ∈ compiled.diagnostics)) := by
  intro compiled
  have hfits := Item.fits_of_mem_items hi
  have hplaced := Item.placed_of_mem_items hi
  obtain ⟨hentries, hperm⟩ := Compilation.ofStatements_entries ss
  obtain ⟨s', hrun, -⟩ := Item.runs_record hfits
  obtain ⟨r, hr, rfl⟩ := Option.map_eq_some_iff.1 he
  rw [hr] at hrun
  have hreported : ∀ d ∈ i.alone.2, d ∈ compiled.diagnostics := by
    intro d hd
    rw [hperm.mem_iff, Item.allReports]
    simp only [List.mem_append, List.mem_flatMap]
    exact .inl (.inl (.inr ⟨i, hi, hd⟩))
  obtain ⟨hblock, hrow⟩ := Item.record_of_heading hfits hplaced hkeyed hrun hlabel
  refine ⟨?_, ?_⟩
  · rw [hentries]
    refine mem_firstsAfter_of_isList (by simp [Collection.isList, hkeyed])
      (List.mem_filterMap.2 ⟨i, hi, he⟩)
  · cases hform : i.form with
    | block =>
      obtain ⟨hget, hmismatch⟩ := hblock hform
      exact .inl ⟨rfl, hget, fun v hv hd => (hmismatch v hv hd).imp fun _ h => hreported _ h⟩
    | row =>
      obtain ⟨hget, hrepeat⟩ := hrow hform
      exact .inr ⟨rfl, hget, fun v hv => (hrepeat v hv).imp fun _ h => hreported _ h⟩
    | rel =>
      have := hplaced.2 hform
      rw [hkeyed] at this
      cases this

/-- The culture `elves` as a block and as a row, each with another id behind its label. -/
theorem labels_stand_elves :
    let here : Span := .point 0 .origin
    let dwarves : Value := .name "dwarves" here
    let ss : List Statement :=
      [.block "culture" false [.name "elves" here] [.field "id" false [] dwarves here] here,
      .field "culture" false [.name "elves" here, .name "id" here] dwarves here]
    ∃ i j e f, Item.items ss = [i, j] ∧ i.collection.kind = .keyed ∧ i.entry? = some e ∧
      i.heading.get? "id" = some (.str "elves") ∧ j.collection.kind = .keyed ∧ j.entry? = some f ∧
      j.heading.get? "id" = some (.str "elves") ∧
      e.record.get? "id" = some (.str "elves") ∧
      (∃ place, (Problem.labelMismatch "id" (.str "dwarves") (.str "elves")).reported place ∈
        (Compilation.ofStatements ss).diagnostics) ∧
      f.record.get? "id" = some (.str "dwarves") ∧
      ∃ place, (Problem.duplicateKey "id").reported place ∈
        (Compilation.ofStatements ss).diagnostics := by
  intro here dwarves ss
  let cultures := Collection.keyed "culture" "cultures" "cultures" ["cultures"] "id" (some "name")
  let i : Item :=
    ⟨.block, cultures,
      .block "culture" false [.name "elves" here] [.field "id" false [] dwarves here] here⟩
  let j : Item :=
    ⟨.row, cultures, .field "culture" false [.name "elves" here, .name "id" here] dwarves here⟩
  have hitems : Item.items ss = [i, j] := by rfl
  obtain ⟨e, he⟩ : ∃ e, i.entry? = some e := ⟨_, rfl⟩
  obtain ⟨f, hf⟩ := Option.isSome_iff_exists.1 (show Option.isSome j.entry? = true by decide +kernel)
  have hmem : i ∈ Item.items ss := by rw [hitems]; exact List.mem_cons_self ..
  have hmem' : j ∈ Item.items ss := by rw [hitems]; exact List.mem_cons_of_mem _ (List.mem_cons_self ..)
  have hi : i.heading.get? "id" = some (.str "elves") := by rfl
  have hj : j.heading.get? "id" = some (.str "elves") := by rfl
  obtain ⟨-, ⟨-, hid, hmismatch⟩ | ⟨hrow, -⟩⟩ := labels_stand hmem rfl he hi
  swap
  · cases hrow
  obtain ⟨-, ⟨hblock, -⟩ | ⟨-, hid', hrepeat⟩⟩ := labels_stand hmem' rfl hf hj
  · cases hblock
  have hexplicit : i.explicit.get? "id" = some (.str "dwarves") := by rfl
  have hexplicit' : j.explicit.get? "id" = some (.str "dwarves") := by
    have htext : (j.explicit.get? "id").bind Json.string? = some "dwarves" := by decide +kernel
    obtain ⟨x, hx, hs⟩ := Option.bind_eq_some_iff.1 htext
    rw [hx, Json.string?_eq_some.1 hs]
  rw [hexplicit', Option.getD_some] at hid'
  exact ⟨i, j, e, f, hitems, rfl, he, hi, rfl, hf, hj, hid, hmismatch _ hexplicit (by decide), hid',
    hrepeat _ hexplicit'⟩

end Worldbook
