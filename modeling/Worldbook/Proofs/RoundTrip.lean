import Worldbook.Proofs.Files

/-!
# Configurations come back

The files of a configuration are compiled without a report, to one record for each that was written
and in the order of writing (`compileFiles_writeFiles`). Where numbers are narrow and no list of
limits is empty, nothing of the meaning is lost (`config_compileFiles_same`), and the configuration
that comes back is written to the same files (`writeFiles_config_compileFiles`).
-/

namespace Worldbook

open CompileM

/-! ## The files of a configuration -/

def OutputFile.sources (ids : Nat → FileId) (files : List OutputFile) : List (FileId × String) :=
  files.zipIdx.map fun f => (ids f.2, f.1.content)

namespace Output

/-- The records of a collection that are written, if it has the right shape. -/
def kept (config : Json) (c : Collection) : List Record :=
  ((records c (config.get? c.key)).toOption).getD []

def fileOf (options : OutputOptions) (kept : Collection → List Record) (c : Collection) : OutputFile :=
  ⟨c.file ++ "." ++ options.extension, content c options.indent (sorted c options.sort (kept c))⟩

def isWritten (options : OutputOptions) (kept : Collection → List Record) (c : Collection) : Bool :=
  !(kept c).isEmpty || options.includeEmpty

theorem file?_eq (options : OutputOptions) {members : Record} {c : Collection}
    {kept : Collection → List Record} (h : records c (members.get? c.key) = .ok (kept c)) :
    file? options members c =
      .ok (if isWritten options kept c then some (fileOf options kept c) else none) := by
  unfold file? isWritten fileOf
  rw [h]
  cases hk : (kept c).isEmpty <;> cases options.includeEmpty <;>
    simp [bind, Except.bind, hk, pure, Except.pure]

theorem exists_records {options : OutputOptions} {members : Record} {c : Collection}
    {f : Option OutputFile} (h : file? options members c = .ok f) :
    ∃ rs, records c (members.get? c.key) = .ok rs := by
  unfold file? at h
  cases hr : records c (members.get? c.key) with
  | ok rs => exact ⟨rs, rfl⟩
  | error e =>
    rw [hr] at h
    cases h

end Output

theorem mapM_of_ok {α β : Type} {f : α → Except OutputError β} {g : α → β} {xs : List α}
    (h : ∀ x ∈ xs, f x = .ok (g x)) : xs.mapM f = .ok (xs.map g) := by
  induction xs with
  | nil => rfl
  | cons x xs ih =>
    rw [List.mapM_cons, h x (List.mem_cons_self ..), ih fun y hy => h y (List.mem_cons_of_mem _ hy)]
    rfl

theorem exists_of_mapM_ok {α β : Type} {f : α → Except OutputError β} {xs : List α} {ys : List β}
    (h : xs.mapM f = .ok ys) : ∀ x ∈ xs, ∃ y, f x = .ok y := by
  induction xs generalizing ys with
  | nil => exact fun x hx => by cases hx
  | cons x xs ih =>
    rw [List.mapM_cons] at h
    cases hx : f x with
    | error e => rw [hx] at h; cases h
    | ok y =>
      cases hxs : xs.mapM f with
      | error e => rw [hx, hxs] at h; cases h
      | ok zs =>
        intro z hz
        rcases List.mem_cons.1 hz with rfl | hz
        · exact ⟨y, hx⟩
        · exact ih hxs z hz

namespace Output

variable {options : OutputOptions} {config : Json} {files : List OutputFile}

/-- What is written of a configuration whose collections have the right shape. -/
theorem writeFiles_of_records {members : Record}
    (h : ∀ c ∈ Collection.all, records c (Record.get? members c.key) = .ok (kept (.obj members) c)) :
    writeFiles options (.obj members) = .ok
      ((Collection.all.filter (isWritten options (kept (.obj members)))).map
        (fileOf options (kept (.obj members)))) := by
  have hfiles := mapM_of_ok fun c hc => file?_eq options (h c hc)
  have hkept := List.filterMap_filter (p := isWritten options (kept (.obj members)))
    (f := fun c => some (fileOf options (kept (.obj members)) c)) (l := Collection.all)
  rw [List.filterMap_eq_map'] at hkept
  rw [writeFiles, hfiles, hkept]
  simp only [bind, Except.bind, pure, Except.pure, List.filterMap_map, Function.comp_def, id_eq]

/-- A configuration that is written is an object whose collections have the right shape. -/
theorem records_of_writeFiles (h : writeFiles options config = .ok files) :
    ∃ members, config = .obj members ∧
    (∀ c ∈ Collection.all, records c (Record.get? members c.key) = .ok (kept config c)) ∧
    files = (Collection.all.filter (isWritten options (kept config))).map
      (fileOf options (kept config)) := by
  cases config with
  | obj members =>
    have hrecords : ∀ c ∈ Collection.all, records c (Record.get? members c.key) =
      .ok (kept (.obj members) c) := by
      intro c hc
      cases hall : Collection.all.mapM (file? options members) with
      | error e =>
        simp only [writeFiles, hall] at h
        cases h
      | ok fs =>
        obtain ⟨f, hf⟩ := exists_of_mapM_ok hall c hc
        obtain ⟨rs, hrs⟩ := exists_records hf
        have hget : (Json.obj members).get? c.key = Record.get? members c.key := rfl
        rw [kept, hget, hrs]
        rfl
    refine ⟨members, rfl, hrecords, ?_⟩
    rw [writeFiles_of_records hrecords] at h
    exact (Except.ok.inj h).symm
  | _ => cases h

theorem sorted_perm (c : Collection) (order : SortOrder) (rs : List Record) :
    (sorted c order rs).Perm rs := by
  cases order with
  | preserve => exact .refl _
  | byId =>
    rw [sorted]
    cases c.idField with
    | none => exact .refl _
    | some field => exact List.mergeSort_perm ..
  | custom compare => exact List.mergeSort_perm ..

theorem mem_of_mem_filterMap_record? {c : Collection} {items : List Json} {o : Record}
    (h : o ∈ items.filterMap (record? c)) : .obj o ∈ items ∧ c.identifies o = true := by
  obtain ⟨x, hx, hr⟩ := List.mem_filterMap.1 h
  cases x with
  | obj r =>
    rw [record?_obj, Option.ite_none_right_eq_some, Option.some.injEq] at hr
    obtain ⟨hid, rfl⟩ := hr
    exact ⟨hx, hid⟩
  | _ => cases hr

/-- The value of a collection that has the right shape: nothing, the items of
a list, or one record. -/
theorem records_cases {c : Collection} {v : Option Json} {rs : List Record} (h : records c v = .ok rs) :
    ((v = none ∨ v = some .null) ∧ rs = []) ∨
      (c.isList = true ∧ ∃ items, v = some (.arr items) ∧ rs = items.filterMap (record? c)) ∨
      (c.isList = false ∧ ∃ o, v = some (.obj o) ∧ rs = [o]) := by
  cases v with
  | none =>
    cases h
    exact .inl ⟨.inl rfl, rfl⟩
  | some x =>
    cases hl : c.isList with
    | true =>
      cases x with
      | null => cases h; exact .inl ⟨.inr rfl, rfl⟩
      | arr items =>
        simp only [records, hl, if_true] at h
        cases h
        exact .inr (.inl ⟨rfl, items, rfl, rfl⟩)
      | _ => simp [records, hl] at h
    | false =>
      cases x with
      | null => cases h; exact .inl ⟨.inr rfl, rfl⟩
      | obj o =>
        simp only [records, hl, Bool.false_eq_true, if_false] at h
        cases h
        exact .inr (.inr ⟨rfl, o, rfl, rfl⟩)
      | _ => simp [records, hl] at h

/-- What every value inside a collection has, its records have. -/
theorem every_of_records {p : Json → Bool} {c : Collection} {v : Option Json}
    (hv : ∀ x ∈ v, x.every p = true) {rs : List Record} (h : records c v = .ok rs) :
    ∀ o ∈ rs, (Json.obj o).every p = true := by
  intro o ho
  rcases records_cases h with ⟨-, rfl⟩ | ⟨-, items, rfl, rfl⟩ | ⟨-, r, rfl, rfl⟩
  · cases ho
  · exact (Json.every_arr.1 (hv _ rfl)).2 _ (mem_of_mem_filterMap_record? ho).1
  · rw [List.mem_singleton.1 ho]
    exact hv _ rfl

/-- What is kept of a collection can be told apart, and is one record if the
collection holds one. -/
theorem fits_of_records {c : Collection} {v : Option Json} (hv : ∀ x ∈ v, x.isValid = true)
    {rs : List Record} (h : records c v = .ok rs) : c.Fits rs := by
  refine ⟨every_of_records hv h, ?_, ?_⟩
  · intro o ho
    rcases records_cases h with ⟨-, rfl⟩ | ⟨-, items, -, rfl⟩ | ⟨hl, r, -, -⟩
    · cases ho
    · exact (mem_of_mem_filterMap_record? ho).2
    · rw [Collection.isList, Bool.or_eq_false_iff, decide_eq_false_iff_not] at hl
      simp only [Collection.identifies, Collection.requiredId?, if_neg hl.1]
  · intro hl
    rcases records_cases h with ⟨-, rfl⟩ | ⟨hl', -⟩ | ⟨-, r, -, rfl⟩
    · simp
    · rw [hl] at hl'
      cases hl'
    · simp

end Output

/-! ## What the files are compiled to -/

theorem forall₂_zipIdx {α β : Type} {P : α → β → Prop} {g : α → Nat → β} (xs : List α)
    (h : ∀ x ∈ xs, ∀ i, P x (g x i)) (n : Nat) :
    List.Forall₂ P xs ((xs.zipIdx n).map fun p => g p.1 p.2) := by
  induction xs generalizing n with
  | nil => exact .nil
  | cons x xs ih =>
    rw [List.zipIdx_cons, List.map_cons]
    exact .cons (h x (List.mem_cons_self ..) n)
      (ih (fun y hy => h y (List.mem_cons_of_mem _ hy)) (n + 1))

section
variable {config : Json} {options : OutputOptions} {files : List OutputFile}
  (hv : config.isValid = true) (h : writeFiles options config = .ok files) (ids : Nat → FileId)
include hv h

theorem fits_sorted {c : Collection} (hc : c ∈ Collection.all) :
    c.Fits (Output.sorted c options.sort (Output.kept config c)) := by
  obtain ⟨members, rfl, hrecords, -⟩ := Output.records_of_writeFiles h
  have hfits := Output.fits_of_records (fun x hx => Written.isValid_of_get? hv hx) (hrecords c hc)
  exact hfits.of_perm (Output.sorted_perm ..)

theorem parse_written {f : OutputFile} (hf : f ∈ files) (id : FileId) :
    ∃ ss, parse id f.content = .ok ss := by
  obtain ⟨members, -, -, rfl⟩ := Output.records_of_writeFiles h
  obtain ⟨c, hc, rfl⟩ := List.mem_map.1 hf
  have hc := List.mem_of_mem_filter hc
  exact (compile_content hc (fits_sorted hv h hc) id options.indent).1

/-- The files of a configuration are compiled to what its records come back as, without a report. -/
theorem compileFiles_restores : (compileFiles (OutputFile.sources ids files)).diagnostics = [] ∧
    (∀ e ∈ (compileFiles (OutputFile.sources ids files)).entries, e.collection ∈ Collection.all) ∧
    ∀ c ∈ Collection.all,
    List.Forall₂ (Entry.Restores c) (Output.sorted c options.sort (Output.kept config c))
      ((compileFiles (OutputFile.sources ids files)).entries.filter (·.collection == c)) := by
  have hfits : ∀ c ∈ Collection.all, c.Fits (Output.sorted c options.sort (Output.kept config c)) :=
    fun c hc => fits_sorted hv h hc
  obtain ⟨members, -, -, rfl⟩ := Output.records_of_writeFiles h
  have hn : (Collection.all.filter (Output.isWritten options (Output.kept config))).Nodup :=
    List.Nodup.filter _ (by decide)
  -- each file alone holds the records of its collection
  have hholds :=
    forall₂_zipIdx (P := fun c d => d.Holds c (Output.sorted c options.sort (Output.kept config c)))
    (g := fun c i => compile (ids i) (Output.fileOf options (Output.kept config) c).content)
    (Collection.all.filter (Output.isWritten options (Output.kept config)))
    (fun c hc i => by
      have hc := List.mem_of_mem_filter hc
      obtain ⟨-, hquiet, hrestores⟩ := compile_content hc (hfits c hc) (ids i) options.indent
      exact ⟨hquiet, hrestores, (hfits c hc).single⟩) 0
  have hcompiled : compileFiles (OutputFile.sources ids ((Collection.all.filter
      (Output.isWritten options (Output.kept config))).map
        (Output.fileOf options (Output.kept config)))) =
      .merge [] (((Collection.all.filter (Output.isWritten options (Output.kept config))).zipIdx 0).map
        fun p =>
        compile (ids p.2) (Output.fileOf options (Output.kept config) p.1).content) := by
    rw [compileFiles, OutputFile.sources, List.zipIdx_map, List.map_map, List.map_map]
    rfl
  obtain ⟨hquiet, hentries⟩ := merge_of_holds hholds hn [] (by simp)
  rw [hcompiled]
  refine ⟨hquiet, fun e he => ?_, fun c hc => ?_⟩
  · rw [hentries] at he
    obtain ⟨d, hd, he⟩ := List.mem_flatMap.1 he
    obtain ⟨c, hc, hd⟩ := exists_of_forall₂ hholds hd
    obtain ⟨o, -, ho⟩ := exists_of_forall₂ hd.restores he
    rw [ho.1]
    exact List.mem_of_mem_filter hc
  -- a collection without a file has no record that is kept
  have hrestores := restores_filter hholds hn c
  rw [← hentries] at hrestores
  split at hrestores
  · exact hrestores
  · next hnot =>
    have hempty : Output.kept config c = [] := by
      rw [List.mem_filter, not_and, Bool.not_eq_true, Output.isWritten, Bool.or_eq_false_iff,
        Bool.not_eq_false'] at hnot
      exact List.isEmpty_iff.1 (hnot hc).1
    rw [hempty, (Output.sorted_perm c options.sort []).eq_nil]
    exact hrestores

/-- The records of a collection that come back, in the order in which they were written. -/
theorem recordsOf_restores {c : Collection} (hc : c ∈ Collection.all) :
    List.Forall₂ (fun o o' => Json.Recovers (.obj o) (.obj o') ∧
        ((Json.obj o).isTame = true → Item.write c o' = Item.write c o))
      (Output.sorted c options.sort (Output.kept config c))
      ((compileFiles (OutputFile.sources ids files)).recordsOf c) := by
  rw [Compilation.recordsOf, List.forall₂_map_right_iff]
  exact ((compileFiles_restores hv h ids).2.2 c hc).imp fun _ _ he => he.2

end

/-- The files of any configuration are clean: each is read without a syntax
error, and together they are compiled without a report to one record for each
that is written, which recovers it, in the order of writing. -/
theorem compileFiles_writeFiles {config : Json} (hv : config.isValid = true) {options : OutputOptions}
    {files : List OutputFile} (h : writeFiles options config = .ok files) (ids : Nat → FileId) :
    let compiled := compileFiles (OutputFile.sources ids files)
    (∀ f ∈ files, ∀ id, ∃ ss, parse id f.content = .ok ss) ∧ compiled.diagnostics = [] ∧
      ∀ c ∈ Collection.all, ∃ rs, Output.records c (config.get? c.key) = .ok rs ∧
        (compiled.recordsOf c).length = rs.length ∧
        List.Forall₂ (fun o o' => Json.Recovers (.obj o) (.obj o')) (Output.sorted c options.sort rs)
          (compiled.recordsOf c) := by
  refine ⟨fun f hf id => parse_written hv h hf id, (compileFiles_restores hv h ids).1, fun c hc => ?_⟩
  have hrecords := recordsOf_restores hv h ids hc
  obtain ⟨members, rfl, hall, -⟩ := Output.records_of_writeFiles h
  refine ⟨_, hall c hc, ?_, hrecords.imp fun _ _ hr => hr.1⟩
  rw [← hrecords.length_eq, (Output.sorted_perm ..).length_eq]

/-- Reserved words as keys and ids, an empty name, a number of more than 64 bits
with sign and the start of a comment are all written so that they are read. -/
theorem compileFiles_writeFiles_reserved :
    let config := Json.obj [
      ("cultures", .arr [
        .obj [("do", .obj [("a b", .arr [.null, .num (.int 18446744073709551615)])]),
          ("id", .str "end"), ("name", .str "")],
        .str "elves", .obj [("id", .bool true)]]),
      ("uiConfig", .obj [("mutate", .str "#\n")])]
    config.isValid = true ∧ ∃ files, writeFiles .standard config = .ok files ∧ files.length = 2 ∧
      (compileFiles (OutputFile.sources id files)).diagnostics = [] := by
  intro config
  have hv : config.isValid = true := by decide +kernel
  obtain ⟨files, hfiles⟩ : ∃ files, writeFiles .standard config = .ok files := ⟨_, rfl⟩
  have hlength : (writeFiles .standard config).toOption.map List.length = some 2 := by decide +kernel
  rw [hfiles] at hlength
  exact ⟨hv, files, hfiles, Option.some.inj hlength, (compileFiles_writeFiles hv hfiles id).2.1⟩

/-! ## Written again -/

namespace Output

/-- The order of ids looks at the ids only. -/
def textBefore : Option String → Option String → Bool
  | none, _ => true
  | some _, none => false
  | some s, some t => !decide (t < s)

theorem idBefore_eq (field : String) (a b : Record) :
    idBefore field a b = textBefore (Written.text? a field) (Written.text? b field) := by
  rw [idBefore]
  cases Written.text? a field <;> cases Written.text? b field <;> rfl

theorem textBefore_trans {a b c : Option String} (hab : textBefore a b = true)
    (hbc : textBefore b c = true) : textBefore a c = true := by
  cases a with
  | none => rfl
  | some s =>
    cases b with
    | none => cases hab
    | some t =>
      cases c with
      | none => cases hbc
      | some u =>
        simp only [textBefore, Bool.not_eq_true', decide_eq_false_iff_not, String.not_lt] at hab hbc ⊢
        exact String.le_trans hab hbc

theorem textBefore_total (a b : Option String) : (textBefore a b || textBefore b a) = true := by
  cases a with
  | none => rfl
  | some s =>
    cases b with
    | none => rfl
    | some t =>
      simp only [textBefore, Bool.or_eq_true, Bool.not_eq_true', decide_eq_false_iff_not, String.not_lt]
      exact String.le_total s t

/-- Records in order whose ids are those of sorted records stay in order. -/
theorem sorted_of_texts {c : Collection} {order : SortOrder} (ho : order = .preserve ∨ order = .byId)
    {rs rs' : List Record}
    (h : ∀ field, rs'.map (Written.text? · field) = (sorted c order rs).map (Written.text? · field)) :
    sorted c order rs' = rs' := by
  rcases ho with rfl | rfl
  · rfl
  · cases hf : c.idField with
    | none => simp only [sorted, hf]
    | some field =>
      have hsorted : ((sorted c .byId rs).map (Written.text? · field)).Pairwise fun a b =>
        textBefore a b = true := by
        simp only [sorted, hf, List.pairwise_map, ← idBefore_eq]
        refine List.pairwise_mergeSort (fun a b c hab hbc => ?_) (fun a b => ?_) rs
        · rw [idBefore_eq] at hab hbc ⊢
          exact textBefore_trans hab hbc
        · rw [idBefore_eq, idBefore_eq]
          exact textBefore_total _ _
      rw [← h, List.pairwise_map] at hsorted
      simp only [sorted, hf]
      exact List.mergeSort_of_pairwise (hsorted.imp fun {a b} hab => by rw [idBefore_eq]; exact hab)

end Output

theorem map_eq_of_forall₂ {α β γ : Type} {f : α → γ} {g : β → γ} {xs : List α} {ys : List β}
    (h : List.Forall₂ (fun x y => g y = f x) xs ys) : ys.map g = xs.map f := by
  induction h with
  | nil => rfl
  | cons hxy _ ih => rw [List.map_cons, List.map_cons, hxy, ih]

section
variable {config : Json} {options : OutputOptions} {files : List OutputFile}
  (ht : config.isTame = true) (h : writeFiles options config = .ok files) (ids : Nat → FileId)
include ht h

/-- Of a tame configuration the records that come back are alike, and are
written in the same way. -/
theorem recordsOf_alike {c : Collection} (hc : c ∈ Collection.all) :
    List.Forall₂ (fun o o' => Alike o o' ∧ Json.same (.obj o') (.obj o) = true ∧
      Item.write c o' = Item.write c o) (Output.sorted c options.sort (Output.kept config c))
        ((compileFiles (OutputFile.sources ids files)).recordsOf c) := by
  have htame : ∀ o ∈ Output.sorted c options.sort (Output.kept config c),
    (Json.obj o).isTame = true := by
    obtain ⟨members, rfl, hrecords, -⟩ := Output.records_of_writeFiles h
    intro o ho
    exact Output.every_of_records (fun x hx => Written.isTame_of_get? ht hx) (hrecords c hc) o
      ((Output.sorted_perm ..).mem_iff.1 ho)
  refine (forall₂_and_left htame (recordsOf_restores (Json.isValid_of_isTame ht) h ids hc)).imp ?_
  rintro o o' ⟨hto, hr, hwrite⟩
  exact ⟨alike_of_recovers hto hr, Json.same_of_recovers hto hr, hwrite hto⟩

theorem records_compiled {c : Collection} (hc : c ∈ Collection.all) :
    Output.records c ((compileFiles (OutputFile.sources ids files)).config.get? c.key) =
      .ok ((compileFiles (OutputFile.sources ids files)).recordsOf c) := by
  have hv := Json.isValid_of_isTame ht
  have hfits := fits_sorted hv h hc
  have hrecords := recordsOf_alike ht h ids hc
  rw [Compilation.get?_config _ hc,
    Compilation.records_collectionValue? (compileFiles_restores hv h ids).2.1 hc
    (fun hl => by rw [← hrecords.length_eq]; exact hfits.single hl), List.filter_eq_self.2]
  intro o' ho'
  obtain ⟨o, ho, ha, -⟩ := exists_of_forall₂ hrecords ho'
  have hid := hfits.identified o ho
  unfold Collection.identifies at hid ⊢
  cases hreq : c.requiredId? with
  | none => rfl
  | some field =>
    rw [hreq] at hid
    simpa only [ha.text?] using hid

theorem kept_compiled {c : Collection} (hc : c ∈ Collection.all) :
    Output.kept (compileFiles (OutputFile.sources ids files)).config c =
      (compileFiles (OutputFile.sources ids files)).recordsOf c := by
  rw [Output.kept, records_compiled ht h ids hc]
  rfl

theorem content_compiled {c : Collection} (hc : c ∈ Collection.all) :
    Output.content c options.indent ((compileFiles (OutputFile.sources ids files)).recordsOf c) =
      Output.content c options.indent (Output.sorted c options.sort (Output.kept config c)) := by
  refine congrArg (String.intercalate "\n") (map_eq_of_forall₂ ((recordsOf_alike ht h ids hc).imp ?_))
  rintro o o' ⟨-, -, hwrite⟩
  rw [hwrite]

/-- The records that come back stand in the order in which they are written. -/
theorem sorted_compiled (hs : options.sort = .preserve ∨ options.sort = .byId) {c : Collection}
    (hc : c ∈ Collection.all) :
    Output.sorted c options.sort ((compileFiles (OutputFile.sources ids files)).recordsOf c) =
      (compileFiles (OutputFile.sources ids files)).recordsOf c :=
  Output.sorted_of_texts hs fun field =>
    map_eq_of_forall₂ ((recordsOf_alike ht h ids hc).imp fun _ _ ha => ha.1.text? field)

/-- A collection has records again exactly if it had some. -/
theorem isWritten_compiled {c : Collection} (hc : c ∈ Collection.all) :
    Output.isWritten options (Output.kept (compileFiles (OutputFile.sources ids files)).config) c =
      Output.isWritten options (Output.kept config) c := by
  have hlength := (recordsOf_alike ht h ids hc).length_eq
  rw [(Output.sorted_perm ..).length_eq] at hlength
  have hempty : ((compileFiles (OutputFile.sources ids files)).recordsOf c).isEmpty =
    (Output.kept config c).isEmpty := by
    rw [Bool.eq_iff_iff, List.isEmpty_iff_length_eq_zero, List.isEmpty_iff_length_eq_zero, hlength]
  rw [Output.isWritten, Output.isWritten, kept_compiled ht h ids hc, hempty]

theorem fileOf_compiled (hs : options.sort = .preserve ∨ options.sort = .byId) {c : Collection}
    (hc : c ∈ Collection.all) :
    Output.fileOf options (Output.kept (compileFiles (OutputFile.sources ids files)).config) c =
      Output.fileOf options (Output.kept config) c := by
  rw [Output.fileOf, Output.fileOf, kept_compiled ht h ids hc, sorted_compiled ht h ids hs hc,
    content_compiled ht h ids hc]

end

/-- The configuration that comes back is written to the same files. -/
theorem writeFiles_config_compileFiles {config : Json} (ht : config.isTame = true)
    {options : OutputOptions} (hs : options.sort = .preserve ∨ options.sort = .byId)
    {files : List OutputFile} (h : writeFiles options config = .ok files) (ids : Nat → FileId) :
    writeFiles options (compileFiles (OutputFile.sources ids files)).config = .ok files := by
  have hrecords :
    ∀ c ∈ Collection.all,
    Output.records c ((compileFiles (OutputFile.sources ids files)).config.get? c.key) =
      .ok (Output.kept (compileFiles (OutputFile.sources ids files)).config c) := by
    intro c hc
    rw [kept_compiled ht h ids hc, records_compiled ht h ids hc]
  refine (Output.writeFiles_of_records hrecords).trans (congrArg Except.ok ?_)
  obtain ⟨members, -, -, hfiles⟩ := Output.records_of_writeFiles h
  calc (Collection.all.filter
    (Output.isWritten options (Output.kept (compileFiles (OutputFile.sources ids files)).config))).map
        (Output.fileOf options (Output.kept (compileFiles (OutputFile.sources ids files)).config))
      = (Collection.all.filter (Output.isWritten options (Output.kept config))).map
        (Output.fileOf options (Output.kept (compileFiles (OutputFile.sources ids files)).config)) := by
        rw [List.filter_congr fun c hc => isWritten_compiled ht h ids hc]
    _ = (Collection.all.filter (Output.isWritten options (Output.kept config))).map
        (Output.fileOf options (Output.kept config)) :=
        List.map_congr_left fun c hc => fileOf_compiled ht h ids hs (List.mem_of_mem_filter hc)
    _ = files := hfiles.symm

/-- An id that is a reserved word, a name with quotes and a change by a
negative amount are written the same way again. -/
theorem writeFiles_config_compileFiles_quoted :
    let config := Json.obj [
      ("eras", .arr [
        .obj [("name", .str "The \"End\""), ("id", .str "end")],
        .obj [("id", .str "dawn"),
          ("effects", .arr [.obj [("type", .str "modify_pressure"), ("delta", .num (.int (-3))),
            ("pressureId", .str "unrest")]])]])]
    config.isTame = true ∧ ∃ files, writeFiles .standard config = .ok files ∧ files.length = 1 ∧
      writeFiles .standard (compileFiles (OutputFile.sources id files)).config = .ok files := by
  intro config
  have ht : config.isTame = true := by decide +kernel
  obtain ⟨files, hfiles⟩ : ∃ files, writeFiles .standard config = .ok files := ⟨_, rfl⟩
  have hlength : (writeFiles .standard config).toOption.map List.length = some 1 := by decide +kernel
  rw [hfiles] at hlength
  exact ⟨ht, files, hfiles, Option.some.inj hlength,
    writeFiles_config_compileFiles ht (.inr rfl) hfiles id⟩

/-! ## The meaning of a configuration -/

namespace Collection

/-- The item of a list is a record of the collection: an object, with text
under the id field where there is one. -/
def admits (c : Collection) : Json → Bool
  | .obj o => c.identifies o
  | _ => false

/-- The items of a list in order. By id, items with equal ids stay as they stand. -/
def inOrder (c : Collection) (order : SortOrder) (items : List Json) : List Json :=
  match order, c.idField with
  | .byId, some field => items.mergeSort fun a b => (a.text? field).getD "" ≤ (b.text? field).getD ""
  | _, _ => items

/-- What a collection holds of its value: nothing if it is missing, null or a
list without records. -/
def normal? (c : Collection) (order : SortOrder) : Option Json → Option Json
  | none | some .null => none
  | some (.arr items) =>
    match c.inOrder order (items.filter c.admits) with
    | [] => none
    | kept => some (.arr kept)
  | some other => some other

end Collection

/-- A configuration without what is no collection or no record, each list in order. -/
def Json.normalForm (order : SortOrder) (config : Json) : Json :=
  .obj (Collection.all.filterMap fun c => (c.normal? order (config.get? c.key)).map (Prod.mk c.key))

namespace Output

theorem filter_admits (c : Collection) (items : List Json) :
    items.filter c.admits = (items.filterMap (record? c)).map Json.obj := by
  induction items with
  | nil => rfl
  | cons v items ih =>
    cases v with
    | obj o =>
      rw [List.filter_cons, List.filterMap_cons, record?_obj, ih, Collection.admits]
      cases c.identifies o <;> rfl
    | _ => exact ih

/-- The order of items is the order in which their records are written. -/
theorem inOrder_records {c : Collection} (hc : c ∈ Collection.all) {order : SortOrder}
    (ho : order = .preserve ∨ order = .byId) {rs : List Record}
    (hid : ∀ o ∈ rs, c.identifies o = true) :
    c.inOrder order (rs.map Json.obj) = (sorted c order rs).map Json.obj := by
  rcases ho with rfl | rfl
  · rfl
  · cases hf : c.idField with
    | none => simp only [Collection.inOrder, sorted, hf]
    | some field =>
      have htext : ∀ o ∈ rs, ∃ id, Written.text? o field = some id := by
        intro o hm
        have hkept := hid o hm
        rw [Collection.identifies, (Collection.labels_of_all c hc).1, hf] at hkept
        exact Option.isSome_iff_exists.1 hkept
      simp only [Collection.inOrder, sorted, hf]
      refine (List.map_mergeSort fun a ha b hb => ?_).symm
      obtain ⟨s, hs⟩ := htext a ha
      obtain ⟨t, ht⟩ := htext b hb
      have hget : ∀ o : Record, (Json.obj o).text? field = Written.text? o field := fun _ => rfl
      simp only [idBefore, hget, hs, ht, Option.getD_some, ← String.not_lt, decide_not]

/-- The normal form of a collection is made of the records that are written. -/
theorem normal?_of_records {c : Collection} (hc : c ∈ Collection.all) {order : SortOrder}
    (ho : order = .preserve ∨ order = .byId) {v : Option Json} {rs : List Record}
    (h : records c v = .ok rs) : c.normal? order v = match (sorted c order rs).map Json.obj with
      | [] => none
      | first :: rest => some (if c.isList then .arr (first :: rest) else first) := by
  rcases records_cases h with ⟨hv, rfl⟩ | ⟨hl, items, rfl, rfl⟩ | ⟨hl, o, rfl, rfl⟩
  · rw [(sorted_perm c order []).eq_nil]
    rcases hv with rfl | rfl <;> rfl
  · have hid : ∀ o ∈ items.filterMap (record? c), c.identifies o = true := fun o hm =>
      (mem_of_mem_filterMap_record? hm).2
    have hkept := inOrder_records hc ho hid
    rw [← filter_admits] at hkept
    rw [Collection.normal?, hkept, hl]
    cases (sorted c order (items.filterMap (record? c))).map Json.obj <;> rfl
  · rw [(sorted_perm c order [o]).eq_singleton, hl]
    rfl

end Output

/-- Objects with the same collections, each the same, are the same. -/
theorem Json.same_of_collections {cs : List Collection} (hkeys : (cs.map (·.key)).Nodup)
    {f g : Collection → Option Json}
    (h : ∀ c ∈ cs, Option.Rel (fun x y => same x y = true) (f c) (g c)) :
    same (.obj (cs.filterMap fun c => (f c).map (Prod.mk c.key))) (.obj (cs.filterMap fun c =>
      (g c).map (Prod.mk c.key))) = true := by
  have hlength : (cs.filterMap fun c => (f c).map (Prod.mk c.key)).length =
      (cs.filterMap fun c => (g c).map (Prod.mk c.key)).length := by
    rw [List.length_filterMap_eq_countP, List.length_filterMap_eq_countP]
    refine List.countP_congr fun c hc => ?_
    have hrel := h c hc
    revert hrel
    generalize f c = x
    generalize g c = y
    rintro (_ | _) <;> rfl
  rw [same, Bool.and_eq_true, beq_iff_eq, sameMembers_iff]
  refine ⟨hlength, fun m hm => ?_⟩
  obtain ⟨c, hc, hmap⟩ := List.mem_filterMap.1 hm
  obtain ⟨x, hx, rfl⟩ := Option.map_eq_some_iff.1 hmap
  have hrel := h c hc
  rw [hx] at hrel
  cases hg : g c with
  | none =>
    rw [hg] at hrel
    cases hrel
  | some y =>
    rw [hg] at hrel
    cases hrel with
    | some hxy => exact ⟨y, (get?_filterMap_key hkeys g hc).trans hg, hxy⟩

/-- What comes back means what was written: the normal form of the configuration. -/
theorem config_compileFiles_same {config : Json} (ht : config.isTame = true) {options : OutputOptions}
    (hs : options.sort = .preserve ∨ options.sort = .byId) {files : List OutputFile}
    (h : writeFiles options config = .ok files) (ids : Nat → FileId) :
    (compileFiles (OutputFile.sources ids files)).config.same (config.normalForm options.sort) =
      true := by
  refine Json.same_of_collections (by decide) fun c hc => ?_
  have hall := (compileFiles_restores (Json.isValid_of_isTame ht) h ids).2.1
  have hrecords := recordsOf_alike ht h ids hc
  obtain ⟨members, rfl, hkept, -⟩ := Output.records_of_writeFiles h
  rw [Compilation.collectionValue?_eq hall hc]
  refine (?_ : Option.Rel _ _ (Collection.normal? c options.sort (Record.get? members c.key)))
  rw [Output.normal?_of_records hc hs (hkept c hc)]
  generalize (compileFiles (OutputFile.sources ids files)).recordsOf c = rs' at hrecords
  generalize Output.sorted c options.sort (Output.kept (.obj members) c) = rs at hrecords
  cases hrecords with
  | nil => exact .none
  | cons hfirst hmore =>
    refine .some ?_
    split
    · rw [Json.same, ← List.map_cons, ← List.map_cons, Json.sameItems_iff, List.forall₂_map_left_iff,
        List.forall₂_map_right_iff]
      exact .cons hfirst.2.1 (hmore.flip.imp fun _ _ ha => ha.2.1)
    · exact hfirst.2.1

/-- What is no record, no collection or null does not come back, and the rest does. -/
theorem config_compileFiles_same_dropped :
    let config := Json.obj [
      ("cultures", .arr [
        .obj [("name", .str "Orcs"), ("id", .str "orcs")], .null, .obj [("id", .num (.int 5))],
        .obj [("id", .str "elves"), ("age", .num (.int 900))]]),
      ("eras", .null), ("notes", .arr [])]
    let options : OutputOptions := ⟨false, .preserve, 4, "txt"⟩
    config.isTame = true ∧ ∃ files, writeFiles options config = .ok files ∧
      (compileFiles (OutputFile.sources id files)).config.same (.obj [("cultures", .arr [
        .obj [("name", .str "Orcs"), ("id", .str "orcs")],
        .obj [("id", .str "elves"), ("age", .num (.int 900))]])]) = true := by
  intro config options
  have ht : config.isTame = true := by decide +kernel
  obtain ⟨files, hfiles⟩ : ∃ files, writeFiles options config = .ok files := ⟨_, rfl⟩
  exact ⟨ht, files, hfiles, config_compileFiles_same ht (.inl rfl) hfiles id⟩

end Worldbook
