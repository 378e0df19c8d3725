import Mathlib.Data.List.Basic
import Worldbook.Compilation

/-!
# Merging a batch

A batch is the concatenation of its compiled texts, less the entries whose single-record collection
was filled before. `firstsAfter` and `repeatsAfter` say which these are by their place in the
concatenation; `keepFirst` finds them with the collections seen so far.
-/

namespace Worldbook

namespace Entry

/-- The entry is of a single-record collection that one of the entries before it fills. -/
def repeats (before : List Entry) (e : Entry) : Bool :=
  !e.collection.isList && before.any (·.collection == e.collection)

/-- The entries of a list that repeat none before them, `before` standing in front of the list. -/
def firstsAfter (before es : List Entry) : List Entry :=
  (es.zipIdx.filter fun p => !repeats (before ++ es.take p.2) p.1).map Prod.fst

def repeatsAfter (before es : List Entry) : List Entry :=
  (es.zipIdx.filter fun p => repeats (before ++ es.take p.2) p.1).map Prod.fst

def duplicate (e : Entry) : Diagnostic :=
  (Problem.duplicateSingleton e.collection.block).reported e.span

theorem filter_zipIdx_cons (p : List Entry → Entry → Bool) (before : List Entry) (e : Entry)
    (es : List Entry) :
    ((e :: es).zipIdx.filter fun q => p (before ++ (e :: es).take q.2) q.1).map Prod.fst =
      (if p before e then [e] else []) ++
        (es.zipIdx.filter fun q => p (before ++ [e] ++ es.take q.2) q.1).map Prod.fst := by
  have hshift : (es.zipIdx 1).filter (fun q => p (before ++ (e :: es).take q.2) q.1) =
      (es.zipIdx.filter fun q => p (before ++ [e] ++ es.take q.2) q.1).map (Prod.map id (· + 1)) := by
    rw [List.zipIdx_succ, List.filter_map]
    congr 1
    apply List.filter_congr
    intro q _
    simp
  rw [List.zipIdx_cons, List.filter_cons, Nat.zero_add, hshift]
  cases hp : p before e <;> simp [hp]

@[simp] theorem firstsAfter_nil (before : List Entry) : firstsAfter before [] = [] := rfl

@[simp] theorem repeatsAfter_nil (before : List Entry) : repeatsAfter before [] = [] := rfl

theorem firstsAfter_cons (before : List Entry) (e : Entry) (es : List Entry) :
    firstsAfter before (e :: es) = (if repeats before e then [] else [e]) ++
      firstsAfter (before ++ [e]) es := by
  rw [firstsAfter, filter_zipIdx_cons fun b x => !repeats b x]
  cases repeats before e <;> rfl

theorem repeatsAfter_cons (before : List Entry) (e : Entry) (es : List Entry) :
    repeatsAfter before (e :: es) = (if repeats before e then [e] else []) ++
      repeatsAfter (before ++ [e]) es := by
  rw [repeatsAfter, filter_zipIdx_cons]
  rfl

theorem firstsAfter_append (before es fs : List Entry) :
    firstsAfter before (es ++ fs) = firstsAfter before es ++ firstsAfter (before ++ es) fs := by
  induction es generalizing before with
  | nil => simp
  | cons e es ih =>
    simp only [List.cons_append, firstsAfter_cons, ih, List.append_assoc, List.nil_append]

theorem firstsAfter_of_repeatsAfter_eq_nil {before es : List Entry} (h : repeatsAfter before es = []) :
    firstsAfter before es = es := by
  induction es generalizing before with
  | nil => rfl
  | cons e es ih =>
    rw [repeatsAfter_cons, List.append_eq_nil_iff] at h
    rw [firstsAfter_cons, ih h.2]
    cases hr : repeats before e with
    | true => rw [hr] at h; cases h.1
    | false => rfl

/-- Of a collection with a single record only the first entry is kept, and
none if there was one before. -/
theorem filter_firstsAfter {c : Collection} (hc : c.isList = false) (before es : List Entry) :
    (firstsAfter before es).filter (·.collection == c) =
      if before.any (·.collection == c) then [] else (es.filter (·.collection == c)).take 1 := by
  induction es generalizing before with
  | nil => simp
  | cons e es ih =>
    rw [firstsAfter_cons, List.filter_append, ih, List.any_append, List.filter_cons]
    by_cases he : e.collection = c
    · cases hb : before.any (·.collection == c) <;> simp [repeats, he, hc, hb]
    · cases hr : repeats before e <;> simp [he]

end Entry

def Diagnostic.start? (d : Diagnostic) : Option Nat := d.span.map (·.start.offset)

/-! ## Keeping the first of each collection -/

namespace Compilation

open Entry

def Fills (seen : List Collection) (before : List Entry) : Prop :=
  ∀ c : Collection, c.isList = false → seen.contains c = before.any (·.collection == c)

theorem fills_nil : Fills [] [] := fun _ _ => rfl

theorem Fills.of_isList {seen : List Collection} {before : List Entry}
    (h : Fills seen before) {e : Entry} (he : e.collection.isList = true) :
    Fills seen (before ++ [e]) := by
  intro c hc
  have hne : e.collection ≠ c := by
    rintro rfl
    rw [he] at hc
    cases hc
  rw [h c hc, List.any_append, List.any_cons, beq_false_of_ne hne, List.any_nil, Bool.or_false,
    Bool.or_false]

theorem Fills.of_repeat {seen : List Collection} {before : List Entry}
    (h : Fills seen before) {e : Entry} (he : before.any (·.collection == e.collection) = true) :
    Fills seen (before ++ [e]) := by
  intro c hc
  rw [h c hc, List.any_append]
  by_cases hec : e.collection = c
  · rw [hec] at he
    rw [he, Bool.true_or]
  · rw [List.any_cons, beq_false_of_ne hec, List.any_nil, Bool.or_false, Bool.or_false]

theorem Fills.cons {seen : List Collection} {before : List Entry} (h : Fills seen before) (e : Entry) :
    Fills (e.collection :: seen) (before ++ [e]) := by
  intro c hc
  rw [List.contains_cons, h c hc, List.any_append, Bool.or_comm, List.any_cons, List.any_nil,
    Bool.or_false, BEq.comm]

theorem keepFirst_eq {seen : List Collection} {before : List Entry} (h : Fills seen before)
    (es : List Entry) :
    ∃ seen', keepFirst seen es =
      (firstsAfter before es, (repeatsAfter before es).map duplicate, seen') ∧
      Fills seen' (before ++ es) := by
  induction es generalizing seen before with
  | nil => exact ⟨seen, rfl, by rwa [List.append_nil]⟩
  | cons e es ih =>
    rw [keepFirst, firstsAfter_cons, repeatsAfter_cons, List.append_cons before e es]
    cases hl : e.collection.isList with
    | true =>
      obtain ⟨seen', hkeep, hfills⟩ := ih (h.of_isList hl)
      exact ⟨seen', by simp [hkeep, repeats, hl], hfills⟩
    | false =>
      rw [h _ hl]
      cases hb : before.any (·.collection == e.collection) with
      | true =>
        obtain ⟨seen', hkeep, hfills⟩ := ih (h.of_repeat hb)
        exact ⟨seen', by simp [hkeep, repeats, hl, hb, duplicate], hfills⟩
      | false =>
        obtain ⟨seen', hkeep, hfills⟩ := ih (h.cons e)
        exact ⟨seen', by simp [hkeep, repeats, hl, hb], hfills⟩

/-! ## Sorting the reports of one text -/

theorem startsBefore_iff {a b : Diagnostic} :
    startsBefore a b = true ↔ ∀ m, a.start? = some m → ∃ n, b.start? = some n ∧ m ≤ n := by
  unfold startsBefore Diagnostic.start?
  cases a.span <;> cases b.span <;> simp

theorem startsBefore_trans (a b c : Diagnostic) (hab : startsBefore a b = true)
    (hbc : startsBefore b c = true) : startsBefore a c = true := by
  rw [startsBefore_iff] at *
  intro m hm
  obtain ⟨n, hn, hmn⟩ := hab m hm
  obtain ⟨k, hk, hnk⟩ := hbc n hn
  exact ⟨k, hk, Nat.le_trans hmn hnk⟩

theorem startsBefore_total (a b : Diagnostic) : (startsBefore a b || startsBefore b a) = true := by
  rw [Bool.or_eq_true, startsBefore_iff, startsBefore_iff]
  cases a.start? with
  | none => exact .inl nofun
  | some m =>
    cases b.start? with
    | none => exact .inr nofun
    | some n => simpa using Nat.le_total m n

theorem startsBefore_of_start? {a b : Diagnostic} (h : a.start? = b.start?) : startsBefore a b = true :=
  startsBefore_iff.2 fun m hm => ⟨m, h ▸ hm, Nat.le_refl m⟩

/-- The diagnostics of a group are those reported, first those without a place and then the others
by where they start; those that start at one place are in the order reported. -/
structure Sorted (reported group : List Diagnostic) : Prop where
  perm : group.Perm reported
  sorted : group.Pairwise fun a b => ∀ m, a.start? = some m → ∃ n, b.start? = some n ∧ m ≤ n
  stable : ∀ start, group.filter (·.start? == start) = reported.filter (·.start? == start)

theorem sorted_mergeSort (ds : List Diagnostic) : Sorted ds (ds.mergeSort startsBefore) where
  perm := List.mergeSort_perm ..
  sorted := (List.pairwise_mergeSort startsBefore_trans startsBefore_total ds).imp startsBefore_iff.1
  stable start := by
    have hties : (ds.filter (·.start? == start)).Pairwise (startsBefore · ·) := by
      refine List.pairwise_of_forall_mem_list fun a ha b hb => startsBefore_of_start? ?_
      rw [List.mem_filter, beq_iff_eq] at ha hb
      rw [ha.2, hb.2]
    have hsub := List.sublist_mergeSort startsBefore_trans startsBefore_total hties List.filter_sublist
    have hsub' := hsub.filter (·.start? == start)
    simp only [List.filter_filter, Bool.and_self] at hsub'
    exact (hsub'.eq_of_length (((List.mergeSort_perm ..).filter _).length_eq.symm)).symm

/-! ## The merged batch -/

/-- What is reported of a compilation after other entries: its own
diagnostics, and the entries that repeat one. -/
def reportedAfter (before : List Entry) (c : Compilation) : List Diagnostic :=
  c.diagnostics ++ (repeatsAfter before c.entries).map duplicate

def groups (before : List Entry) : List Compilation → List (List Diagnostic)
  | [] => []
  | c :: rest => (c.reportedAfter before).mergeSort startsBefore :: groups (before ++ c.entries) rest

theorem merge_eq {seen : List Collection} {before : List Entry} (h : Fills seen before)
    (cs : List Compilation) :
    merge seen cs = ⟨firstsAfter before (cs.flatMap entries), (groups before cs).flatten⟩ := by
  induction cs generalizing seen before with
  | nil => rfl
  | cons c cs ih =>
    obtain ⟨seen', hkeep, hfills⟩ := keepFirst_eq h c.entries
    rw [merge, hkeep, List.flatMap_cons, firstsAfter_append, groups, List.flatten_cons]
    simp only [ih hfills, reportedAfter]

theorem groups_append (before : List Entry) (cs ds : List Compilation) :
    groups before (cs ++ ds) = groups before cs ++ groups (before ++ cs.flatMap entries) ds := by
  induction cs generalizing before with
  | nil => simp [groups]
  | cons c cs ih => simp only [List.cons_append, groups, ih, List.flatMap_cons, List.append_assoc]

theorem length_groups (before : List Entry) (cs : List Compilation) :
    (groups before cs).length = cs.length := by
  induction cs generalizing before with
  | nil => rfl
  | cons c cs ih => rw [groups, List.length_cons, ih, List.length_cons]

theorem groups_sorted (before : List Entry) {cs : List Compilation} {i : Nat} {c : Compilation}
    (h : cs[i]? = some c) :
    ∃ g, (groups before cs)[i]? = some g ∧
    Sorted (c.reportedAfter (before ++ (cs.take i).flatMap entries)) g := by
  induction cs generalizing before i with
  | nil => cases h
  | cons d cs ih =>
    cases i with
    | zero =>
      cases h
      exact ⟨_, rfl, by simpa using sorted_mergeSort _⟩
    | succ i =>
      obtain ⟨g, hg, hs⟩ := ih (before ++ d.entries) h
      exact ⟨g, hg, by simpa using hs⟩

end Compilation

theorem compileFiles_eq (files : List (FileId × String)) :
    compileFiles files =
      ⟨Entry.firstsAfter [] ((files.map fun f => compile f.1 f.2).flatMap Compilation.entries),
        (Compilation.groups [] (files.map fun f => compile f.1 f.2)).flatten⟩ :=
  Compilation.merge_eq Compilation.fills_nil _

theorem compile_of_error {file : FileId} {text : String} {e : SyntaxError}
    (h : parse file text = .error e) : compile file text = ⟨[], [e.diagnostic]⟩ := by
  rw [compile, h]

/-- A text with a syntax error adds its one diagnostic in its place and changes nothing else. -/
theorem compileFiles_of_error (files more : List (FileId × String)) {file : FileId} {text : String}
    {e : SyntaxError} (h : parse file text = .error e) : ∃ ds,
    (compileFiles (files ++ more)).diagnostics = (compileFiles files).diagnostics ++ ds ∧
      compileFiles (files ++ (file, text) :: more) =
        ⟨(compileFiles (files ++ more)).entries,
          (compileFiles files).diagnostics ++ e.diagnostic :: ds⟩ := by
  simp only [compileFiles_eq, List.map_append, List.map_cons, compile_of_error h,
    Compilation.groups_append, List.flatten_append, List.flatMap_append, List.flatMap_cons,
    List.nil_append]
  refine ⟨_, rfl, ?_⟩
  rw [Compilation.groups, List.append_nil, Compilation.reportedAfter, Entry.repeatsAfter_nil,
    List.map_nil, List.append_nil, List.mergeSort_singleton, List.flatten_cons, List.singleton_append]

/-- The law of merging: the entries of a batch are those of its texts in order, less
the repeated ones, so that a collection with a single record has the first of its
records; the diagnostics are grouped by text and sorted within each, every entry left
out being reported once; and a text with a syntax error takes no part in the rest. -/
theorem compileFiles_merges (files : List (FileId × String)) :
    let own := files.map fun f => compile f.1 f.2
    let all := own.flatMap Compilation.entries
    (compileFiles files).entries = Entry.firstsAfter [] all ∧
    (∀ c : Collection, c.isList = false → (compileFiles files).entries.filter (·.collection == c) =
      (all.filter (·.collection == c)).take 1) ∧
    (∃ groups : List (List Diagnostic), (compileFiles files).diagnostics = groups.flatten ∧
      groups.length = files.length ∧
      ∀ (i : Nat) (c : Compilation), own[i]? = some c → ∃ g, groups[i]? = some g ∧
        Compilation.Sorted
          (c.diagnostics ++
            (Entry.repeatsAfter ((own.take i).flatMap Compilation.entries) c.entries).map
            Entry.duplicate) g) ∧
    ∀ before file text after e, files = before ++ (file, text) :: after → parse file text = .error e →
      (compileFiles files).entries = (compileFiles (before ++ after)).entries ∧
      ∃ ds, (compileFiles (before ++ after)).diagnostics = (compileFiles before).diagnostics ++ ds ∧
        (compileFiles files).diagnostics = (compileFiles before).diagnostics ++ e.diagnostic :: ds := by
  intro own all
  refine ⟨congrArg _ (compileFiles_eq files), fun c hc => ?_, ?_, ?_⟩
  · rw [compileFiles_eq, Entry.filter_firstsAfter hc]
    rfl
  · refine ⟨Compilation.groups [] own, congrArg _ (compileFiles_eq files), ?_, fun i c hi => ?_⟩
    · rw [Compilation.length_groups, List.length_map]
    · exact Compilation.groups_sorted [] hi
  · rintro before file text after e rfl herror
    obtain ⟨ds, hds, hfiles⟩ := compileFiles_of_error before after herror
    rw [hfiles]
    exact ⟨rfl, ds, hds, rfl⟩

/-- A text with a syntax error between two that both fill a collection with a single record. -/
theorem compileFiles_merges_themes :
    let dark : FileId × String := (0, "ui_config do\n  theme dark\nend")
    let torn : FileId × String := (1, "culture (")
    let light : FileId × String := (2, "culture elves \"Elves\"; ui_config do theme light end")
    let files := [dark, torn, light]
    (compileFiles files).entries = (compileFiles [dark, light]).entries ∧
    (compileFiles files).entries.map (·.collection.key) = ["uiConfig", "cultures"] ∧
    ∃ groups : List (List Diagnostic), (compileFiles files).diagnostics = groups.flatten ∧
      ∃ g, groups[2]? = some g ∧ g.map (·.code) = ["duplicate-singleton"] := by
  intro dark torn light files
  obtain ⟨hentries, -, ⟨groups, hflatten, -, hsorted⟩, hremoved⟩ := compileFiles_merges files
  refine ⟨?_, ?_, groups, hflatten, ?_⟩
  · cases htorn : parse torn.1 torn.2 with
    | ok ss =>
      have : (parse torn.1 torn.2).isOk = false := by decide +kernel
      rw [htorn] at this
      cases this
    | error e => exact (hremoved [dark] torn.1 torn.2 [light] e rfl htorn).1
  · rw [hentries]
    decide +kernel
  · obtain ⟨g, hg, hperm, -, -⟩ := hsorted 2 (compile light.1 light.2) rfl
    refine ⟨g, hg, List.perm_singleton.1 ((hperm.map (·.code)).trans (.of_eq ?_))⟩
    decide +kernel

end Worldbook
