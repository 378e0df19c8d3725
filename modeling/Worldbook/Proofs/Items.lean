import Mathlib.Data.List.Forall2
import Worldbook.Proofs.Readings

/-!
# Items and their reports

The judgements of the small languages carried up to records, items and whole texts: a text without
its spans compiles to the same records and reports, without theirs.
-/

namespace Worldbook

open CompileM

/-! ## Records -/

namespace Item

theorem tries_labelFields (c : Collection) : ∀ (i : Nat) (labels : List Value),
    Tries id (labelFields c i labels) (labelFields c i (labels.map Value.erased))
  | _, [] => tries_pure rfl
  | i, label :: rest => by
    simp only [labelFields, List.map_cons, Value.text?_relocate, Value.describe_relocate,
      Value.span_relocate]
    cases c.labelFields[i]?.join with
    | none => exact (mirrors_report _ _ _ rfl).lift.bind fun _ => tries_pure rfl
    | some field =>
      cases label.text? with
      | some text => exact (tries_labelFields c (i + 1) rest).bind fun _ => tries_pure rfl
      | none =>
        by_cases hi : i = 0
        · simp only [if_pos hi]
          rw [← bind_assoc, ← bind_assoc]
          exact Tries.bind (f := id) (tries_reject rfl _) fun _ => tries_labelFields c (i + 1) rest
        · simp only [if_neg hi]
          exact (mirrors_report _ _ _ rfl).lift.bind fun _ => tries_labelFields c (i + 1) rest

theorem mirrors_unlabelled (labels : Record) (place : String → Span) (r : Record) :
    Mirrors id (unlabelled labels place r) (unlabelled labels (fun _ => .nowhere) r) := by
  induction r with
  | nil => exact mirrors_pure rfl
  | cons m r ih =>
    obtain ⟨key, value⟩ := m
    unfold unlabelled
    cases labels.get? key with
    | none => exact ih.bind fun _ => mirrors_pure rfl
    | some label =>
      refine Mirrors.ite (fun _ => ?_) fun _ => ih
      exact (mirrors_report _ _ _ rfl).bind fun _ => ih

theorem placeOf_erased (body : List Statement) (key : String) :
    placeOf (body.map Statement.erased) .nowhere key = .nowhere := by
  unfold placeOf
  rw [List.find?_map]
  cases body.find? ((·.keyword? == some key) ∘ Statement.erased) with
  | none => rfl
  | some s => exact s.span_relocate _

theorem tries_blockRecord (c : Collection) (labels : List Value) (body : List Statement) (span : Span) :
    Tries id (blockRecord c labels body span)
      (blockRecord c (labels.map Value.erased) (body.map Statement.erased) .nowhere) := by
  unfold blockRecord
  rw [← Statement.relocateAll_eq_map]
  refine (tries_labelFields c 0 labels).bind fun labels => ?_
  refine ((Nested.mirrored_ofBody (Statement.mirrored_children body)).fields []).lift.bind
    fun fields => ?_
  have hplace : placeOf (Statement.relocateAll (fun _ => .nowhere) body) .nowhere = fun _ =>
    .nowhere := by
    funext key
    rw [Statement.relocateAll_eq_map]
    exact placeOf_erased body key
  rw [hplace]
  refine (mirrors_unlabelled labels (placeOf body span) fields).lift.bind fun rest => ?_
  cases c.requiredId? with
  | none => exact tries_pure rfl
  | some field => exact Tries.ite (fun _ => tries_pure rfl) fun _ => tries_reject rfl _

theorem leadingText_erased (vs : List Value) :
    leadingText (vs.map Value.erased) = ((leadingText vs).1, (leadingText vs).2.map Value.erased) := by
  cases vs with
  | nil => rfl
  | cons v vs =>
    cases v with
    | str text span =>
      simp only [leadingText, List.map_cons, Value.relocate, List.length_cons, List.length_map]
      split <;> rfl
    | _ => rfl

theorem tries_tagRow (vs : List Value) (span : Span) :
    Tries id (tagRow vs span) (tagRow (vs.map Value.erased) .nowhere) := by
  rcases vs with _ | ⟨tag, _ | ⟨category, _ | ⟨rarity, rest⟩⟩⟩
  · exact tries_reject rfl _
  · exact tries_reject rfl _
  · exact tries_reject rfl _
  · refine (tries_rowText _ tag).bind fun tag => ?_
    refine (tries_rowText _ category).bind fun category => ?_
    refine (tries_rowText _ rarity).bind fun rarity => ?_
    rw [leadingText_erased]
    exact tries_pairFields _ span _

theorem tries_keyedRow (c : Collection) (idField : String) (vs : List Value) (span : Span) :
    Tries id (keyedRow c idField vs span) (keyedRow c idField (vs.map Value.erased) .nowhere) := by
  cases vs with
  | nil => exact tries_reject rfl _
  | cons id rest =>
    refine (tries_rowText _ id).bind fun id => ?_
    cases c.nameField with
    | none => exact tries_pairFields rest span _
    | some field =>
      simp only [leadingText_erased]
      exact tries_pairFields _ span _

theorem tries_rowRecord (c : Collection) (vs : List Value) (span : Span) :
    Tries id (rowRecord c vs span) (rowRecord c (vs.map Value.erased) .nowhere) := by
  unfold rowRecord
  refine Tries.ite (fun _ => tries_tagRow vs span) fun _ => ?_
  cases c.idField with
  | none => exact tries_pairFields vs span []
  | some field => exact tries_keyedRow c field vs span

/-! ## Items -/

def erased (i : Item) : Item := { i with statement := i.statement.erased }

def Fits (i : Item) : Prop :=
  match i.form, i.statement with
  | .block, .block .. | .row, _ | .rel, .rel .. => True
  | _, _ => False

theorem tries_record {i : Item} (h : i.Fits) : Tries id i.record i.erased.record := by
  obtain ⟨form, c, s⟩ := i
  cases form with
  | block =>
    cases s with
    | block name quoted labels body span =>
      simp only [record, erased, Statement.relocate, Statement.relocateAll_eq_map]
      exact tries_blockRecord c labels body span
    | _ => exact h.elim
  | row =>
    simp only [record, erased, Statement.positional_relocate, Statement.span_relocate]
    exact tries_rowRecord c s.positional s.span
  | rel =>
    cases s with
    | rel key label kind source target values span =>
      exact Statement.tries_relationship false key label kind source target values span
    | _ => exact h.elim

theorem fits_of_ofStatement? {s : Statement} {i : Item} (h : ofStatement? s = some i) :
    i.Fits ∧ i.statement = s := by
  cases s with
  | block name quoted labels body span =>
    obtain ⟨c, -, rfl⟩ := Option.map_eq_some_iff.1 h
    exact ⟨trivial, rfl⟩
  | field key quoted labels value span =>
    obtain ⟨c, -, rfl⟩ := Option.map_eq_some_iff.1 h
    exact ⟨trivial, rfl⟩
  | rel key label kind source target values span =>
    simp only [ofStatement?] at h
    split at h
    · obtain ⟨c, -, rfl⟩ := Option.map_eq_some_iff.1 h
      exact ⟨trivial, rfl⟩
    · cases h
  | _ => cases h

theorem fits_of_inContainer? {c : Collection} {s : Statement} {i : Item}
    (h : inContainer? c s = some i) : i.Fits ∧ i.statement = s := by
  unfold inContainer? at h
  split at h <;> try split at h
  all_goals cases h <;> exact ⟨trivial, rfl⟩

theorem ofStatement?_erased (s : Statement) : ofStatement? s.erased = (ofStatement? s).map erased := by
  cases s with
  | block name quoted labels body span =>
    simp only [Statement.relocate, ofStatement?, Option.map_map]
    rfl
  | field key quoted labels value span =>
    simp only [Statement.relocate, ofStatement?, Option.map_map]
    rfl
  | rel key label kind source target values span =>
    simp only [Statement.relocate, ofStatement?]
    split
    · simp only [Option.map_map]
      rfl
    · rfl
  | _ => rfl

theorem inContainer?_erased (c : Collection) (s : Statement) :
    inContainer? c s.erased = (inContainer? c s).map erased := by
  cases s with
  | block name quoted labels body span =>
    cases quoted with
    | true => rfl
    | false =>
      simp only [Statement.relocate, inContainer?]
      split <;> rfl
  | field key quoted labels value span =>
    cases quoted with
    | true => rfl
    | false =>
      simp only [Statement.relocate, inContainer?]
      split <;> rfl
  | rel key label kind source target values span =>
    simp only [Statement.relocate, inContainer?]
    split <;> rfl
  | _ => rfl

theorem containerOf?_erased (s : Statement) : containerOf? s.erased = containerOf? s := by
  cases s with
  | block name quoted labels body span => cases quoted <;> rfl
  | _ => rfl

theorem unknown_erased (s : Statement) : unknown s.erased = unknown s := by
  rw [unknown, Statement.keyword?_relocate, Statement.isQuoted_relocate,
    Statement.describe_relocate, unknown]

def eraseOutcome : Except Diagnostic Item → Except Diagnostic Item
  | .ok i => .ok i.erased
  | .error d => .error d.erased

theorem contents_erased (c : Collection) (container : String) (body : List Statement) :
    contents c container (body.map Statement.erased) =
      (contents c container body).map eraseOutcome := by
  simp only [contents, List.map_map]
  congr 1
  funext s
  simp only [Function.comp, inContainer?_erased, Statement.describe_relocate, Statement.span_relocate]
  cases inContainer? c s <;> rfl

theorem containerOf?_eq_some {s : Statement} {c : Collection} (h : containerOf? s = some c) :
    ∃ name labels body span, s = .block name false labels body span := by
  unfold containerOf? at h
  split at h
  · exact ⟨_, _, _, _, rfl⟩
  · cases h

theorem outcomes_container {name : String} {labels : List Value} {body : List Statement} {span : Span}
    {c : Collection} (h : containerOf? (.block name false labels body span) = some c) :
    outcomes (.block name false labels body span) =
      (labels.head?.map fun l => .error ((Problem.containerLabels name).reported l.span)).toList ++
        contents c name body := by
  simp only [outcomes, h, Statement.isQuoted, Bool.false_eq_true, if_false]

theorem outcomes_plain {s : Statement} (h : containerOf? s = none) : outcomes s =
    [match (if s.isQuoted then none else ofStatement? s) with
      | some i => .ok i
      | none => .error ((unknown s).reported s.span)] := by
  simp only [outcomes, h]
  cases s.isQuoted with
  | true => rfl
  | false => cases ofStatement? s <;> rfl

theorem outcomes_erased (s : Statement) : outcomes s.erased = (outcomes s).map eraseOutcome := by
  cases hc : containerOf? s with
  | none =>
    rw [outcomes_plain hc, outcomes_plain ((containerOf?_erased s).trans hc),
      Statement.isQuoted_relocate, ofStatement?_erased, unknown_erased, Statement.span_relocate]
    cases s.isQuoted <;> cases ofStatement? s <;> rfl
  | some c =>
    obtain ⟨name, labels, body, span, rfl⟩ := containerOf?_eq_some hc
    have hc' := (containerOf?_erased _).trans hc
    simp only [Statement.relocate, Statement.relocateAll_eq_map] at hc' ⊢
    rw [outcomes_container hc, outcomes_container hc', contents_erased, List.map_append]
    cases labels <;> simp [eraseOutcome]

theorem items_erased (ss : List Statement) :
    items (ss.map Statement.erased) = (items ss).map erased := by
  simp only [items, List.flatMap_map, outcomes_erased, ← List.map_flatMap, List.filterMap_map,
    List.map_filterMap]
  congr 1
  funext o
  cases o <;> rfl

theorem reports_erased (ss : List Statement) :
    reports (ss.map Statement.erased) = (reports ss).map Diagnostic.erased := by
  simp only [reports, List.flatMap_map, outcomes_erased, ← List.map_flatMap, List.filterMap_map,
    List.map_filterMap]
  congr 1
  funext o
  cases o <;> rfl

theorem mem_all_of_containerOf? {s : Statement} {c : Collection} (h : containerOf? s = some c) :
    c ∈ Collection.all := by
  obtain ⟨name, labels, body, span, rfl⟩ := containerOf?_eq_some h
  simp only [containerOf?] at h
  split at h
  · cases h
  · exact List.mem_of_find?_eq_some h

/-- What a statement comes to: an item of its own, a report that it is none, or in
a container a report about its label and what each statement inside comes to. -/
inductive ComesTo : Statement → Except Diagnostic Item → Prop
  | item {s : Statement} {i : Item} (h : ofStatement? s = some i) : ComesTo s (.ok i)
  | unknown (s : Statement) : ComesTo s (.error ((unknown s).reported s.span))
  | label {name : String} {labels : List Value} {l : Value} (hl : l ∈ labels) (body : List Statement)
      (span : Span) :
      ComesTo (.block name false labels body span)
      (.error ((Problem.containerLabels name).reported l.span))
  | inside {c : Collection} (hc : c ∈ Collection.all) {name : String} {labels : List Value}
      {body : List Statement} {span : Span} {s : Statement} {i : Item} (hs : s ∈ body)
      (h : inContainer? c s = some i) : ComesTo (.block name false labels body span) (.ok i)
  | foreign (c : Collection) {name : String} {labels : List Value} {body : List Statement} {span : Span}
      {s : Statement} (hs : s ∈ body) : ComesTo (.block name false labels body span)
        (.error ((Problem.containerContent name c.block s.describe).reported s.span))

theorem comesTo_of_mem_outcomes {s : Statement} {o : Except Diagnostic Item} (h : o ∈ outcomes s) :
    ComesTo s o := by
  cases hc : containerOf? s with
  | none =>
    rw [outcomes_plain hc, List.mem_singleton] at h
    split at h
    · next i hi =>
      subst h
      split at hi
      · cases hi
      · exact .item hi
    · exact h ▸ .unknown s
  | some c =>
    obtain ⟨name, labels, body, span, rfl⟩ := containerOf?_eq_some hc
    rw [outcomes_container hc, List.mem_append] at h
    rcases h with h | h
    · obtain ⟨l, hl, rfl⟩ := Option.map_eq_some_iff.1 (Option.mem_toList.1 h)
      exact .label (List.mem_of_head? hl) body span
    · obtain ⟨t, ht, rfl⟩ := List.mem_map.1 h
      split
      · next i hi => exact .inside (mem_all_of_containerOf? hc) ht hi
      · exact .foreign c ht

/-- An item comes from a statement outside containers or from one inside the
container of its collection. -/
theorem origin_of_mem_items {ss : List Statement} {i : Item} (h : i ∈ items ss) :
    ∃ s, ofStatement? s = some i ∨ ∃ c ∈ Collection.all, inContainer? c s = some i := by
  obtain ⟨o, ho, hi⟩ := List.mem_filterMap.1 h
  obtain ⟨s, -, hs⟩ := List.mem_flatMap.1 ho
  cases o with
  | error d => cases hi
  | ok j =>
    cases hi
    cases comesTo_of_mem_outcomes hs with
    | item h => exact ⟨s, .inl h⟩
    | inside hc _ h => exact ⟨_, .inr ⟨_, hc, h⟩⟩

theorem fits_of_mem_items {ss : List Statement} {i : Item} (h : i ∈ items ss) : i.Fits := by
  obtain ⟨s, hs | ⟨c, -, hs⟩⟩ := origin_of_mem_items h
  · exact (fits_of_ofStatement? hs).1
  · exact (fits_of_inContainer? hs).1

theorem mirrors_compile {i : Item} (h : i.Fits) : Mirrors id i.compile i.erased.compile := by
  have hreset : Mirrors id (modify fun c => { c with scope := .empty } : CompileM Unit)
      (modify fun c => { c with scope := .empty }) :=
    fun s => ⟨(), .empty, [], runs_silent fun _ => rfl, runs_silent fun _ => rfl⟩
  refine hreset.bind fun _ => ?_
  have hrun := (tries_record h).run
  rwa [Option.map_id] at hrun

end Item

/-! ## Texts -/

def Entry.erased (e : Entry) : Entry := { e with span := .nowhere }

def Entry.content (e : Entry) : Collection × Record := (e.collection, e.record)

def Diagnostic.content (d : Diagnostic) : Severity × String × String := (d.severity, d.code, d.message)

def Compilation.erased (c : Compilation) : Compilation :=
  ⟨c.entries.map Entry.erased, c.diagnostics.map Diagnostic.erased⟩

theorem mirrors_compileItems (seen : List Collection) (items : List Item) (h : ∀ i ∈ items, i.Fits) :
    Mirrors (List.map Entry.erased) (compileItems seen items)
      (compileItems seen (items.map Item.erased)) := by
  induction items generalizing seen with
  | nil => exact mirrors_pure rfl
  | cons i items ih =>
    have hitems (seen : List Collection) := ih seen fun j hj => h j (List.mem_cons_of_mem _ hj)
    refine (Item.mirrors_compile (h i (List.mem_cons_self ..))).bind fun record => ?_
    cases record with
    | none => exact hitems seen
    | some record =>
      have hentry (more : List Entry) : (⟨i.collection, record, i.statement.span⟩ :: more).map
        Entry.erased =
          ⟨i.erased.collection, record, i.erased.statement.span⟩ :: more.map Entry.erased := by
        rw [List.map_cons, Item.erased, Statement.span_relocate]
        rfl
      refine Mirrors.ite (fun _ => ?_) fun _ => Mirrors.ite (fun _ => ?_) fun _ => ?_
      · exact (hitems seen).bind fun more => mirrors_pure (hentry more)
      · exact (mirrors_report _ _ _ (i.statement.span_relocate _)).bind fun _ => hitems seen
      · exact (hitems _).bind fun more => mirrors_pure (hentry more)

section
variable (g : Span → Span)

mutual

theorem Value.overflows_relocate : ∀ v : Value, (v.relocate g).overflows = v.overflows.map g
  | .num n span => by
    rw [relocate, overflows, overflows]
    split <;> rfl
  | .str .. | .bool .. | .null .. | .name .. => rfl
  | .array items _ => by rw [relocate, overflows, Value.overflowsAll_relocateAll items, overflows]
  | .object members _ =>
    by rw [relocate, overflows, Value.overflowsMembers_relocateMembers members, overflows]
  | .call _ args _ => by rw [relocate, overflows, Value.overflowsAll_relocateAll args, overflows]

theorem Value.overflowsAll_relocateAll :
    ∀ vs : List Value, overflowsAll (relocateAll g vs) = (overflowsAll vs).map g
  | [] => rfl
  | v :: rest => by
    rw [relocateAll, overflowsAll, Value.overflows_relocate v, Value.overflowsAll_relocateAll rest,
      overflowsAll, List.map_append]

theorem Value.overflowsMembers_relocateMembers :
    ∀ ms : List (String × Value), overflowsMembers (relocateMembers g ms) = (overflowsMembers ms).map g
  | [] => rfl
  | (_, v) :: rest => by
    rw [relocateMembers, overflowsMembers, Value.overflows_relocate v,
      Value.overflowsMembers_relocateMembers rest, overflowsMembers, List.map_append]

end

theorem Value.overflowsAll_relocate (vs : List Value) :
    overflowsAll (vs.map (·.relocate g)) = (overflowsAll vs).map g := by
  rw [← relocateAll_eq_map, overflowsAll_relocateAll]

mutual

theorem Statement.overflows_relocate : ∀ s : Statement, (s.relocate g).overflows = s.overflows.map g
  | .field key quoted labels value span => by
    rw [relocate, overflows, overflows, ← Value.overflowsAll_relocate]
    simp
  | .block name quoted labels body span => by
    rw [relocate, overflows, overflows, Statement.overflowsAll_relocateAll body,
      Value.overflowsAll_relocate, List.map_append]
  | .rel key label kind source target values span => by
    rw [relocate, overflows, overflows, ← Value.overflowsAll_relocate]
    cases label <;> simp
  | .mutate target id change amount span => by
    rw [relocate, overflows, overflows, Value.overflows_relocate, List.map_append]
    split <;> rfl
  | .predicate word args comparator number upper span => by
    rw [relocate, overflows, overflows, Value.overflowsAll_relocate, List.map_append, List.map_map]
    rfl
  | .within key items span => by rw [relocate, overflows, overflows, Value.overflowsAll_relocate]
  | .origin source none span => Value.overflowsAll_relocate g [source]
  | .origin source (some (kind, direction)) span =>
    Value.overflowsAll_relocate g [source, kind, direction]
  | .bare value span => by rw [relocate, overflows, overflows, Value.overflows_relocate]

theorem Statement.overflowsAll_relocateAll :
    ∀ ss : List Statement, overflowsAll (relocateAll g ss) = (overflowsAll ss).map g
  | [] => rfl
  | s :: rest => by
    rw [relocateAll, overflowsAll, Statement.overflows_relocate s,
      Statement.overflowsAll_relocateAll rest, overflowsAll, List.map_append]

end

end

theorem Compilation.content_of_erased_eq {c d : Compilation} (h : c.erased = d.erased) :
    c.entries.map Entry.content = d.entries.map Entry.content ∧
      c.diagnostics.map Diagnostic.content = d.diagnostics.map Diagnostic.content := by
  obtain ⟨hentries, hreports⟩ := Compilation.mk.inj h
  constructor
  · have := congrArg (List.map Entry.content) hentries
    rwa [List.map_map, List.map_map] at this
  · have := congrArg (List.map Diagnostic.content) hreports
    rwa [List.map_map, List.map_map] at this

/-- Compiling does not look at spans: to forget them before or after is the same. -/
theorem Compilation.ofStatements_erased (ss : List Statement) :
    ofStatements (ss.map Statement.erased) = (ofStatements ss).erased := by
  obtain ⟨entries, scope, new, hrun, hrun'⟩ :=
    mirrors_compileItems [] (Item.items ss) (fun _ => Item.fits_of_mem_items) .empty
  rw [ofStatements, ofStatements, Item.items_erased, Item.reports_erased, hrun, hrun', erased,
    List.map_append, List.map_append, List.map_map, ← Statement.relocateAll_eq_map,
    Statement.overflowsAll_relocateAll, List.map_map]
  rfl

/-- Statements that differ in their spans alone compile to the same records
and the same reports, spans apart. -/
theorem ofStatements_of_erased_eq {ss ts : List Statement}
    (h : ss.map Statement.erased = ts.map Statement.erased) :
    (Compilation.ofStatements ss).entries.map Entry.content =
      (Compilation.ofStatements ts).entries.map Entry.content ∧
    (Compilation.ofStatements ss).diagnostics.map Diagnostic.content =
      (Compilation.ofStatements ts).diagnostics.map Diagnostic.content :=
  Compilation.content_of_erased_eq
    (by rw [← Compilation.ofStatements_erased, h, Compilation.ofStatements_erased])

/-- A row and a statement that is none, in two places. -/
theorem ofStatements_of_moved_row :
    let row (a b : Span) : List Statement :=
      [.field "culture" false [] (.name "elves" a) b, .bare (.null a) b]
    let here : Span := .point 0 .origin
    let there : Span := ⟨3, ⟨2, 4, 30⟩, ⟨2, 9, 35⟩⟩
    (row here here).map Statement.erased = (row there here).map Statement.erased ∧
    (Compilation.ofStatements (row here here)).entries.map Entry.content =
      (Compilation.ofStatements (row there here)).entries.map Entry.content ∧
    (Compilation.ofStatements (row here here)).diagnostics.map Diagnostic.content =
      (Compilation.ofStatements (row there here)).diagnostics.map Diagnostic.content := by
  intro row here there
  have h : (row here here).map Statement.erased = (row there here).map Statement.erased := rfl
  exact ⟨h, ofStatements_of_erased_eq h⟩

end Worldbook
