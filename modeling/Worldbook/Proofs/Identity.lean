import Worldbook.Output
import Worldbook.Proofs.Omissions
import Worldbook.Proofs.Recovery
import Worldbook.Proofs.Runs

/-!
# Which records keep their place

The writer leaves out a record of a keyed collection whose id is no text. A row and a block with a
label give the id as text, and nothing in their fields may replace it without a warning. A block
without a label need only set the field, to any value: it is the one form of an item that compiles
without a report and is not written.
-/

namespace Worldbook

open CompileM

/-! ## Fields set without a report -/

theorem runs_setField (key : String) (value : Json) (span : Span) (r : Record) (s : Scope) :
    Runs (setField key value span r) s (r.set key value) s
      (if r.has key then [(Problem.duplicateKey key).reported span] else []) := by
  intro ds
  unfold setField
  split
  · rfl
  · rw [List.append_nil]
    rfl

theorem runs_fieldValue (key : String) (v : Value) (s : Scope) :
    Runs (fieldValue key v) s (v.underKey s key) s [] :=
  runs_scope (v.underKey · key) s

theorem Runs.of_setField {key : String} {value : Json} {span : Span} {r r' : Record} {s s' : Scope}
    (h : Runs (setField key value span r) s r' s' []) : r' = r ++ [(key, value)] ∧ s' = s := by
  obtain ⟨rfl, rfl, hnew⟩ := (runs_setField key value span r s).eq h
  have hr : ¬r.has key = true := fun hr => by
    rw [if_pos hr] at hnew
    cases hnew
  rw [Record.has_iff] at hr
  exact ⟨Record.set_of_not_mem hr _, rfl⟩

/-- A pair sets its field, with a report where the field was there, and what
follows goes on from that. -/
theorem Runs.of_pair {word : String} {value : Value} {span : Span} {k : Record → Attempt Record}
    (hk : ∀ r, OnlyAdds (k r)) {r r' : Record} {s s' : Scope} {new : List Diagnostic}
    (h : Runs (do k (← setField word (← fieldValue word value) span r) : Attempt Record).run s
      (some r') s' new) :
    ∃ more, Runs (k (r.set word (value.underKey s word))).run s (some r') s' more ∧
      new = (if r.has word then [(Problem.duplicateKey word).reported span] else []) ++ more := by
  have hset (found : Json) := (mirrors_setField word found span r).lift.onlyAdds
  obtain ⟨found, t, first, more, hfound, h₁, rfl⟩ :=
    h.split (mirrors_fieldValue word value).lift.onlyAdds fun found => (hset found).bind hk
  obtain ⟨hvalue, rfl, rfl⟩ := (runs_fieldValue word value s).lift.eq hfound
  cases hvalue
  obtain ⟨held, t, first, more, hheld, h₂, rfl⟩ := h₁.split (hset _) hk
  obtain ⟨hvalue, rfl, rfl⟩ := (runs_setField word _ span r s).lift.eq hheld
  cases hvalue
  exact ⟨more, h₂, rfl⟩

/-- Without a report no field that is there is set again. -/
theorem get?_of_runs_setPairs {vs : List Value} {r r' : Record} {s s' : Scope}
    (h : Runs (setPairs vs r).run s (some r') s' []) {key : String} {v : Json}
    (hk : r.get? key = some v) : r'.get? key = some v := by
  fun_induction setPairs vs r with
  | case1 name value rest r hname => exact absurd h not_runs_reject
  | case2 name value rest r word hword ih =>
    obtain ⟨more, h, hnew⟩ := Runs.of_pair (fun r => (tries_setPairs rest r).onlyAdds) h
    obtain ⟨hfirst, rfl⟩ := List.append_eq_nil_iff.1 hnew.symm
    have hnew : word ∉ r.keys := fun hmem => by simp [Record.has_iff.2 hmem] at hfirst
    refine ih _ h ?_
    rw [Record.set_of_not_mem hnew, Record.get?_append, hk, Option.some_or]
  | case3 vs r => exact Runs.of_pure h ▸ hk

theorem get?_of_runs_pairFields {vs : List Value} {span : Span} {r r' : Record} {s s' : Scope}
    (h : Runs (pairFields vs span r).run s (some r') s' []) {key : String} {v : Json}
    (hk : r.get? key = some v) : r'.get? key = some v := by
  unfold pairFields at h
  split at h
  · exact absurd h not_runs_reject
  · exact get?_of_runs_setPairs h hk

/-! ## The id of an item -/

namespace Item

/-- The id stands in front of the fields, as the first value of a row or the
first label of a block. -/
def namesId (i : Item) : Bool :=
  match i.form, i.statement with
  | .block, .block _ _ [] _ _ => false
  | _, _ => true

theorem Runs.of_rowText {field : String} {v : Value} {text : String} {s s' : Scope}
    {new : List Diagnostic} (h : Runs (rowText field v).run s (some text) s' new) :
    v.text? = some text ∧ s' = s ∧ new = [] := by
  unfold rowText at h
  cases ht : v.text? with
  | none =>
    rw [ht] at h
    exact absurd h not_runs_reject
  | some t =>
    rw [ht] at h
    obtain ⟨hr, rfl, rfl⟩ := (runs_pure (some t) s).eq h
    exact ⟨hr, rfl, rfl⟩

/-- A tag on one line sets its pairs on the three texts in front of them. -/
theorem Runs.of_tagRow {vs : List Value} {span : Span} {r : Record} {s s' : Scope}
    {new : List Diagnostic} (h : Runs (tagRow vs span).run s (some r) s' new) :
    ∃ tag category rarity rest id kind rank, vs = tag :: category :: rarity :: rest ∧
      tag.text? = some id ∧
      Runs (pairFields (leadingText rest).2 span ([textField "tag" id, textField "category" kind,
        textField "rarity" rank] ++ optionalText "description" (leadingText rest).1)).run s
          (some r) s' new := by
  rcases vs with _ | ⟨tag, _ | ⟨category, _ | ⟨rarity, rest⟩⟩⟩
  · exact absurd h not_runs_reject
  · exact absurd h not_runs_reject
  · exact absurd h not_runs_reject
  · have htext (field : String) (v : Value) := (tries_rowText field v).onlyAdds
    have hpairs (vs : List Value) (r : Record) := (tries_pairFields vs span r).onlyAdds
    obtain ⟨id, s₁, first, more, hid, h₁, rfl⟩ := h.split (htext "tag" tag) fun tag =>
      (htext "category" category).bind fun category => (htext "rarity" rarity).bind fun rarity =>
        hpairs _ _
    obtain ⟨kind, s₂, second, more, hkind, h₂, rfl⟩ :=
      h₁.split (htext "category" category) fun category =>
      (htext "rarity" rarity).bind fun rarity => hpairs _ _
    obtain ⟨rank, s₃, third, more, hrank, h₃, rfl⟩ :=
      h₂.split (htext "rarity" rarity) fun rarity => hpairs _ _
    obtain ⟨ht, rfl, rfl⟩ := Runs.of_rowText hid
    obtain ⟨-, rfl, rfl⟩ := Runs.of_rowText hkind
    obtain ⟨-, rfl, rfl⟩ := Runs.of_rowText hrank
    exact ⟨tag, category, rarity, rest, id, kind, rank, rfl, ht, h₃⟩

/-- An item on one line sets its pairs on its id and, in a collection that names one, its name. -/
theorem Runs.of_keyedRow {c : Collection} {field : String} {vs : List Value} {span : Span} {r : Record}
    {s s' : Scope} {new : List Diagnostic} (h : Runs (keyedRow c field vs span).run s (some r) s' new) :
    ∃ v rest id name pairs, vs = v :: rest ∧ v.text? = some id ∧
      (name, pairs) = (match c.nameField with
        | none => ([], rest)
        | some nameField => (optionalText nameField (leadingText rest).1, (leadingText rest).2)) ∧
      Runs (pairFields pairs span (textField field id :: name)).run s (some r) s' new := by
  cases vs with
  | nil => exact absurd h not_runs_reject
  | cons v rest =>
    obtain ⟨id, t, first, more, hid, hpairs, rfl⟩ :=
      h.split (tries_rowText field v).onlyAdds fun id => (tries_pairFields _ span _).onlyAdds
    obtain ⟨ht, rfl, rfl⟩ := Runs.of_rowText hid
    exact ⟨v, rest, id, _, _, rfl, ht, rfl, hpairs⟩

theorem head_of_runs_labelFields {c : Collection} {field : String} (hc : c.idField = some field)
    {label : Value} {labels : List Value} {r : Record} {s s' : Scope}
    (h : Runs (labelFields c 0 (label :: labels)).run s (some r) s' []) :
    ∃ id, r.get? field = some (.str id) := by
  have hfield : c.labelFields[0]?.join = some field := by simp [Collection.labelFields, hc]
  simp only [labelFields, hfield] at h
  cases hl : label.text? with
  | some text =>
    rw [hl] at h
    obtain ⟨more, t, -, h⟩ := h.of_bind (tries_labelFields c 1 labels).onlyAdds fun more =>
      onlyAdds_pure _
    cases Runs.of_pure h
    exact ⟨text, by simp [Record.get?_cons, textField]⟩
  | none =>
    simp only [hl, if_true] at h
    rw [← bind_assoc] at h
    have hreject :=
      tries_reject (f := id) (α := Unit) (p := .labelNotText field label.describe) rfl label.span
    obtain ⟨-, t, h, -⟩ := h.of_bind hreject.onlyAdds fun _ => (tries_labelFields c 1 labels).onlyAdds
    exact absurd h not_runs_reject

theorem idField_of_requiredId? {c : Collection} {field : String} (h : c.requiredId? = some field) :
    c.idField = some field := by
  unfold Collection.requiredId? at h
  split at h
  · exact h
  · cases h

/-- The record of a block is that of its labels and then the fields that no
label gives, and has the id. -/
theorem Runs.of_blockRecord {c : Collection} {field : String} (hc : c.requiredId? = some field)
    {labels : List Value} {body : List Statement} {span : Span} {r : Record} {s s' : Scope}
    {new : List Diagnostic} (h : Runs (blockRecord c labels body span).run s (some r) s' new) :
    ∃ front fields rest s₁ s₂ first second third,
    Runs (labelFields c 0 labels).run s (some front) s₁ first ∧
      Runs (Body.fields (Statement.children body) []) s₁ fields s₂ second ∧
      Runs (unlabelled front (placeOf body span) fields) s₂ rest s' third ∧
      r = front ++ rest ∧ r.has field = true ∧ new = first ++ (second ++ third) := by
  have hbody := (Nested.mirrored_ofBody (Statement.mirrored_children body)).fields []
  have hrest (front fields : Record) := mirrors_unlabelled front (placeOf body span) fields
  have hunlabelled (front fields : Record) := (hrest front fields).lift.onlyAdds
  have hcheck (record : Record) : OnlyAdds (if Record.has record field then pure record
      else reject (.missingId c.block field) span : Attempt Record) := by
    split
    · exact onlyAdds_pure _
    · exact (tries_reject (f := id) rfl span).onlyAdds
  unfold blockRecord at h
  simp only [hc] at h
  obtain ⟨front, s₁, first, more, hfront, h₁, rfl⟩ :=
    h.split (tries_labelFields c 0 labels).onlyAdds fun front =>
    hbody.lift.onlyAdds.bind fun fields => (hunlabelled front fields).bind fun rest => hcheck _
  obtain ⟨fields, s₂, second, more, hfields, h₂, rfl⟩ :=
    h₁.split hbody.lift.onlyAdds fun fields => (hunlabelled front fields).bind fun rest => hcheck _
  obtain ⟨rest, s₃, third, more, hkept, h₃, rfl⟩ :=
    h₂.split (hunlabelled front fields) fun rest => hcheck _
  split at h₃
  · next hhas =>
    obtain ⟨hr, rfl, rfl⟩ := (runs_pure (some (front ++ rest)) s₃).eq h₃
    cases hr
    exact ⟨front, fields, rest, s₁, s₂, first, second, third, hfront, hfields.of_lift hbody.appends,
      hkept.of_lift (hrest front fields).appends, rfl, hhas, by rw [List.append_nil]⟩
  · exact absurd h₃ not_runs_reject

theorem get?_of_runs_blockRecord {c : Collection} {field : String} (hc : c.requiredId? = some field)
    {labels : List Value} {body : List Statement} {span : Span} {r : Record} {s s' : Scope}
    (h : Runs (blockRecord c labels body span).run s (some r) s' []) :
    r.has field = true ∧ (labels ≠ [] → ∃ id, r.get? field = some (.str id)) := by
  obtain ⟨front, fields, rest, s₁, s₂, first, second, third, hfront, -, -, rfl, hhas, hnew⟩ :=
    Runs.of_blockRecord hc h
  refine ⟨hhas, fun hlabels => ?_⟩
  obtain ⟨rfl, -⟩ := List.append_eq_nil_iff.1 hnew.symm
  cases labels with
  | nil => exact absurd rfl hlabels
  | cons label labels =>
    obtain ⟨id, hid⟩ := head_of_runs_labelFields (idField_of_requiredId? hc) hfront
    exact ⟨id, by rw [Record.get?_append, hid, Option.some_or]⟩

/-- The collection of an item is one of those there are, and only
relationships stand on relationship lines. -/
def Placed (i : Item) : Prop :=
  i.collection ∈ Collection.all ∧ (i.form = .rel → i.collection.kind = .relationship)

theorem placed_of_ofStatement? {s : Statement} {i : Item} (h : ofStatement? s = some i) : i.Placed := by
  cases s with
  | block name quoted labels body span =>
    obtain ⟨c, hc, rfl⟩ := Option.map_eq_some_iff.1 h
    exact ⟨List.mem_of_find?_eq_some hc, nofun⟩
  | field key quoted labels value span =>
    obtain ⟨c, hc, rfl⟩ := Option.map_eq_some_iff.1 h
    exact ⟨List.mem_of_find?_eq_some (Option.filter_eq_some_iff.1 hc).1, nofun⟩
  | rel key label kind source target values span =>
    simp only [ofStatement?] at h
    split at h
    · next hkey =>
      obtain ⟨c, hc, rfl⟩ := Option.map_eq_some_iff.1 h
      have hrel : ∀ c ∈ Collection.all, c.block = "seed_relationship" → c.kind = .relationship := by
        decide
      have hmem := List.mem_of_find?_eq_some hc
      have hblock := List.find?_some hc
      exact ⟨hmem, fun _ => hrel c hmem (by simpa [hkey] using hblock)⟩
    · cases h
  | _ => cases h

theorem placed_of_inContainer? {c : Collection} (hc : c ∈ Collection.all) {s : Statement} {i : Item}
    (h : inContainer? c s = some i) : i.Placed := by
  unfold inContainer? at h
  split at h <;> try split at h
  · cases h
    exact ⟨hc, nofun⟩
  · cases h
  · cases h
    exact ⟨hc, nofun⟩
  · cases h
  · next hkind =>
    cases h
    exact ⟨hc, fun _ => hkind⟩
  · cases h
  · cases h

theorem placed_of_mem_items {ss : List Statement} {i : Item} (h : i ∈ items ss) : i.Placed := by
  obtain ⟨s, hs | ⟨c, hc, hs⟩⟩ := origin_of_mem_items h
  · exact placed_of_ofStatement? hs
  · exact placed_of_inContainer? hc hs

/-- An item of a keyed collection that compiles without a report has the id
field. The id is text wherever it stands in front of the fields. -/
theorem get?_id_of_runs {i : Item} (hfits : i.Fits) (hplaced : i.Placed) {field : String}
    (hc : i.collection.requiredId? = some field) {r : Record} {s s' : Scope}
    (h : Runs i.record.run s (some r) s' []) :
    r.has field = true ∧ (i.namesId = true → ∃ id, r.get? field = some (.str id)) := by
  obtain ⟨form, c, statement⟩ := i
  cases form with
  | block =>
    cases statement with
    | block name quoted labels body span =>
      obtain ⟨hhas, hlabelled⟩ := get?_of_runs_blockRecord hc h
      refine ⟨hhas, fun hnames => hlabelled ?_⟩
      rintro rfl
      cases hnames
    | _ => exact hfits.elim
  | row =>
    have hid : ∃ id, r.get? field = some (.str id) := by
      have hfield := idField_of_requiredId? hc
      simp only [record, rowRecord] at h
      split at h
      · next htag =>
        have htags : ∀ c ∈ Collection.all, c.block = "tag" → c.idField = some "tag" := by decide
        have heq := htags c hplaced.1 htag
        rw [hfield] at heq
        cases heq
        obtain ⟨_, _, _, _, id, _, _, -, -, h⟩ := Runs.of_tagRow h
        exact ⟨id, get?_of_runs_pairFields h (by simp [Record.get?_cons, textField])⟩
      · rw [hfield] at h
        obtain ⟨_, _, id, _, _, -, -, -, h⟩ := Runs.of_keyedRow h
        exact ⟨id, get?_of_runs_pairFields h (by simp [Record.get?_cons, textField])⟩
    obtain ⟨id, hid⟩ := hid
    exact ⟨by rw [Record.has, hid]; rfl, fun _ => ⟨id, hid⟩⟩
  | rel =>
    unfold Collection.requiredId? at hc
    rw [hplaced.2 rfl] at hc
    cases hc

end Item

/-! ## The records that are written -/

/-- The writer can tell the record from others of its collection. -/
def Collection.identifies (c : Collection) (r : Record) : Bool :=
  match c.requiredId? with
  | none => true
  | some field => (Written.text? r field).isSome

theorem Output.record?_obj (c : Collection) (r : Record) :
    record? c (.obj r) = if c.identifies r then some r else none := by
  unfold record? Collection.identifies
  cases c.requiredId? with
  | none => rfl
  | some field => cases h : Written.text? r field <;> simp [Json.object?, h]

theorem Output.filterMap_record? (c : Collection) (rs : List Record) :
    (rs.map Json.obj).filterMap (record? c) = rs.filter c.identifies := by
  induction rs with
  | nil => rfl
  | cons r rs ih =>
    rw [List.map_cons, List.filterMap_cons, record?_obj, List.filter_cons, ih]
    cases c.identifies r <;> rfl

theorem get?_filterMap_key {cs : List Collection} (hkeys : (cs.map (·.key)).Nodup)
    (value? : Collection → Option Json) {c : Collection} (hc : c ∈ cs) :
    Record.get? (cs.filterMap fun d => (value? d).map (Prod.mk d.key)) c.key = value? c := by
  induction cs with
  | nil => cases hc
  | cons d cs ih =>
    rw [List.map_cons, List.nodup_cons] at hkeys
    rcases List.mem_cons.1 hc with rfl | hc
    · cases hv : value? c with
      | some v => rw [List.filterMap_cons_some (by rw [hv]; rfl), Record.get?_cons, if_pos rfl]
      | none =>
        rw [List.filterMap_cons_none (by rw [hv]; rfl), Record.get?_eq_none_iff]
        intro hmem
        obtain ⟨m, hm, hkey⟩ := List.mem_map.1 hmem
        obtain ⟨d, hd, hm⟩ := List.mem_filterMap.1 hm
        obtain ⟨v, -, rfl⟩ := Option.map_eq_some_iff.1 hm
        exact hkeys.1 (hkey ▸ List.mem_map_of_mem hd)
    · have hne : d.key ≠ c.key := fun he => hkeys.1 (he ▸ List.mem_map_of_mem hc)
      cases hv : value? d with
      | some v =>
        rw [List.filterMap_cons_some (by rw [hv]; rfl), Record.get?_cons, if_neg hne, ih hkeys.2 hc]
      | none => rw [List.filterMap_cons_none (by rw [hv]; rfl), ih hkeys.2 hc]

namespace Compilation

def recordsOf (c : Compilation) (collection : Collection) : List Record :=
  (c.entries.filter (·.collection == collection)).map Entry.record

theorem collectionValue?_eq {c : Compilation} (hc : ∀ e ∈ c.entries, e.collection ∈ Collection.all)
    {collection : Collection} (hcollection : collection ∈ Collection.all) :
    c.collectionValue? collection = match (c.recordsOf collection).map Json.obj with
      | [] => none
      | first :: rest => some (if collection.isList then .arr (first :: rest) else first) := by
  have hkeys : ∀ c ∈ Collection.all, ∀ d ∈ Collection.all, c.key = d.key → c = d := by decide
  have hfilter : c.entries.filter (·.collection.key == collection.key) =
      c.entries.filter (·.collection == collection) := by
    apply List.filter_congr
    intro e he
    rw [Bool.eq_iff_iff, beq_iff_eq, beq_iff_eq]
    exact ⟨hkeys _ (hc e he) _ hcollection, congrArg _⟩
  rw [collectionValue?, hfilter, recordsOf, List.map_map]
  rfl

/-- Of what was compiled the writer keeps the records it can tell apart. -/
theorem records_collectionValue? {c : Compilation} (hc : ∀ e ∈ c.entries, e.collection ∈ Collection.all)
    {collection : Collection} (hcollection : collection ∈ Collection.all)
    (hsingle : collection.isList = false → (c.recordsOf collection).length ≤ 1) :
    Output.records collection (c.collectionValue? collection) =
      .ok ((c.recordsOf collection).filter collection.identifies) := by
  rw [collectionValue?_eq hc hcollection]
  cases hr : c.recordsOf collection with
  | nil => rfl
  | cons first rest =>
    cases hl : collection.isList with
    | true =>
      simp only [List.map_cons, if_true, Output.records, hl]
      rw [← List.map_cons, Output.filterMap_record?]
    | false =>
      have hrest : rest = [] := by
        have := hsingle hl
        rw [hr, List.length_cons] at this
        exact List.length_eq_zero_iff.1 (by omega)
      have hnone : collection.requiredId? = none := by
        rw [Collection.isList, Bool.or_eq_false_iff, decide_eq_false_iff_not] at hl
        rw [Collection.requiredId?, if_neg hl.1]
      simp only [hrest, List.map_cons, List.map_nil, hl, Bool.false_eq_true, if_false, Output.records,
        Collection.identifies, hnone, List.filter_cons, List.filter_nil, if_true]

end Compilation

theorem mapM_ok {α β : Type} {f : α → Except OutputError β} {xs : List α}
    (h : ∀ x ∈ xs, ∃ y, f x = .ok y) : ∃ ys, xs.mapM f = .ok ys := by
  induction xs with
  | nil => exact ⟨[], rfl⟩
  | cons x xs ih =>
    obtain ⟨y, hy⟩ := h x (List.mem_cons_self ..)
    obtain ⟨ys, hys⟩ := ih fun z hz => h z (List.mem_cons_of_mem _ hz)
    exact ⟨y :: ys, by rw [List.mapM_cons, hy, hys]; rfl⟩

theorem writeFiles_ok {options : OutputOptions} {members : Record}
    (h : ∀ c ∈ Collection.all, ∃ rs, Output.records c (members.get? c.key) = .ok rs) :
    ∃ files, writeFiles options (.obj members) = .ok files := by
  have hfile : ∀ c ∈ Collection.all, ∃ file, Output.file? options members c = .ok file := by
    intro c hc
    obtain ⟨rs, hrs⟩ := h c hc
    unfold Output.file?
    rw [hrs]
    by_cases hskip : (rs.isEmpty && !options.includeEmpty) = true
    · exact ⟨none, by simp only [bind, Except.bind, hskip, if_true]; rfl⟩
    · exact ⟨some _, by simp only [bind, Except.bind, hskip]; rfl⟩
  obtain ⟨files, hfiles⟩ := mapM_ok hfile
  exact ⟨files.filterMap id, by simp only [writeFiles, hfiles]; rfl⟩

theorem exists_of_forall₂ {α β : Type} {R : α → β → Prop} {xs : List α} {ys : List β}
    (h : List.Forall₂ R xs ys) {y : β} (hy : y ∈ ys) : ∃ x ∈ xs, R x y := by
  induction h with
  | nil => cases hy
  | cons hxy _ ih =>
    rcases List.mem_cons.1 hy with rfl | hy
    · exact ⟨_, List.mem_cons_self .., hxy⟩
    · obtain ⟨x, hx, hxy⟩ := ih hy
      exact ⟨x, List.mem_cons_of_mem _ hx, hxy⟩

namespace Compilation

/-- In a text without reports each item of a keyed collection has the id
field, and the id is text where it stands in front of the fields. -/
theorem ids_of_noReports {ss : List Statement} (h : (ofStatements ss).diagnostics = []) :
    List.Forall₂ (fun i e => i.entry? = some e ∧
        ∀ field, e.collection.requiredId? = some field → Record.has e.record field = true ∧
          (i.namesId = true → ∃ id, Record.get? e.record field = some (.str id)))
      (Item.items ss) (ofStatements ss).entries := by
  have hquiet : ∀ i ∈ Item.items ss, i.alone.2 = [] := by
    have hreports : Item.allReports ss = [] := List.nil_perm.1 (h ▸ (ofStatements_entries ss).2)
    simp only [Item.allReports, List.append_eq_nil_iff, List.flatMap_eq_nil_iff] at hreports
    exact hreports.1.1.2
  have hclean : (ofStatements ss).hasErrors = false := by rw [hasErrors, h]; rfl
  obtain ⟨hlength, hall⟩ := List.forall₂_iff_zip.1 (entries_of_noErrors hclean).2
  refine List.forall₂_iff_zip.2 ⟨hlength, fun {i e} hmem => ⟨hall hmem, fun field hfield => ?_⟩⟩
  have hi := (List.of_mem_zip hmem).1
  obtain ⟨record, hrecord, rfl⟩ := Option.map_eq_some_iff.1 (hall hmem)
  obtain ⟨s', hrun, -⟩ := Item.runs_record (Item.fits_of_mem_items hi)
  rw [hrecord, hquiet i hi] at hrun
  exact Item.get?_id_of_runs (Item.fits_of_mem_items hi) (Item.placed_of_mem_items hi) hfield hrun

theorem mem_all_of_mem_entries {ss : List Statement} {e : Entry} (h : e ∈ (ofStatements ss).entries) :
    e.collection ∈ Collection.all := by
  rw [(ofStatements_entries ss).1, Entry.firstsAfter] at h
  obtain ⟨p, hp, rfl⟩ := List.mem_map.1 h
  obtain ⟨i, hi, hentry⟩ :=
    List.mem_filterMap.1 (List.fst_mem_of_mem_zipIdx (List.mem_of_mem_filter hp))
  obtain ⟨record, -, he⟩ := Option.map_eq_some_iff.1 hentry
  rw [← he]
  exact (Item.placed_of_mem_items hi).1

theorem length_recordsOf_le {c : Collection} (hc : c.isList = false) (ss : List Statement) :
    ((ofStatements ss).recordsOf c).length ≤ 1 := by
  rw [recordsOf, (ofStatements_entries ss).1, Entry.filter_firstsAfter hc, List.any_nil,
    if_neg Bool.false_ne_true, List.length_map]
  exact List.length_take_le ..

theorem get?_config (c : Compilation) {collection : Collection} (h : collection ∈ Collection.all) :
    c.config.get? collection.key = c.collectionValue? collection :=
  get?_filterMap_key (by decide) c.collectionValue? h

theorem records_config (ss : List Statement) {c : Collection} (hc : c ∈ Collection.all) :
    Output.records c ((ofStatements ss).config.get? c.key) =
      .ok (((ofStatements ss).recordsOf c).filter c.identifies) := by
  rw [get?_config _ hc]
  exact records_collectionValue? (fun _ => mem_all_of_mem_entries) hc fun hl =>
    length_recordsOf_le hl ss

end Compilation

/-- A text without reports. Every record of a keyed collection has the id field,
and has text there if it comes from a row or from a block with a label. The
writer takes the configuration and keeps, of each collection, the records whose
id is text: all of them when no block without a label gives another id. -/
theorem compile_keeps_records {file : FileId} {text : String}
    (h : (compile file text).diagnostics = []) :
    let compiled := compile file text
    ∃ ss, parse file text = .ok ss ∧
      List.Forall₂ (fun i e => i.entry? = some e ∧
          ∀ field, e.collection.requiredId? = some field → Record.has e.record field = true ∧
            (i.namesId = true → ∃ id, Record.get? e.record field = some (.str id)))
        (Item.items ss) compiled.entries ∧
      (∀ c ∈ Collection.all,
        Output.records c (compiled.config.get? c.key) =
        .ok ((compiled.recordsOf c).filter c.identifies)) ∧
      ((∀ i ∈ Item.items ss, i.namesId = false → ∀ e, i.entry? = some e →
        e.collection.identifies e.record = true) →
        ∀ c ∈ Collection.all, Output.records c (compiled.config.get? c.key) =
        .ok (compiled.recordsOf c)) ∧
      ∀ options, ∃ files, writeFiles options compiled.config = .ok files := by
  intro compiled
  cases hp : parse file text with
  | error e =>
    rw [compile_of_error hp] at h
    cases h
  | ok ss =>
    have hcompiled : compiled = .ofStatements ss := by simp only [compiled, compile, hp]
    rw [show compile file text = compiled from rfl, hcompiled] at h
    rw [hcompiled]
    have hids := Compilation.ids_of_noReports h
    refine ⟨ss, rfl, hids, fun c hc => Compilation.records_config ss hc, fun hnamed c hc => ?_,
      fun options => writeFiles_ok fun c hc => ⟨_, Compilation.records_config ss hc⟩⟩
    rw [Compilation.records_config ss hc, List.filter_eq_self.2]
    intro r hr
    obtain ⟨e, he, rfl⟩ := List.mem_map.1 hr
    obtain ⟨he, hec⟩ := List.mem_filter.1 he
    obtain ⟨i, hi, hentry, hid⟩ := exists_of_forall₂ hids he
    rw [← beq_iff_eq.1 hec]
    cases hnames : i.namesId with
    | false => exact hnamed i hi hnames e hentry
    | true =>
      unfold Collection.identifies
      cases hfield : e.collection.requiredId? with
      | none => rfl
      | some field =>
        obtain ⟨id, hget⟩ := (hid field hfield).2 hnames
        simp only [Written.text?, hget, Option.bind_some, Json.string?, Option.isSome_some]

/-- Of a row, a block with a label and a block that sets its id to a number,
the last is compiled and not written. -/
theorem compile_keeps_two_of_three :
    let text := "culture elves\nculture dwarves do\n  age 900\nend\nculture do\n  id 5\nend\n"
    (compile 0 text).diagnostics = [] ∧
      ∃ c ∈ Collection.all, ((compile 0 text).recordsOf c).length = 3 ∧
      ∃ kept, Output.records c ((compile 0 text).config.get? c.key) = .ok kept ∧ kept.length = 2 := by
  intro text
  have hquiet : (compile 0 text).diagnostics = [] := by
    rw [← List.length_eq_zero_iff]
    decide +kernel
  obtain ⟨ss, -, -, hrecords, -⟩ := compile_keeps_records hquiet
  let cultures := Collection.keyed "culture" "cultures" "cultures" ["cultures"] "id" (some "name")
  have hmem : cultures ∈ Collection.all := by decide
  exact ⟨hquiet, cultures, hmem, by decide +kernel, _, hrecords cultures hmem, by decide +kernel⟩

end Worldbook
