import Worldbook.Proofs.Entries

/-!
# Files come back

The text of a collection's records is read as their statements, and compiled to a record for each of
them, in order and without a report. Files of different collections do not disturb each other, so
the same holds of all files of a configuration.
-/

namespace Worldbook

open CompileM

/-! ## Texts -/

theorem laid_separated (indent : Nat) : ∀ ns : List Node, (∀ n ∈ ns, n.words ≠ []) →
    Laid indent [] ns (String.intercalate "\n" (ns.map (Node.text indent 0))).toList
  | [], _ => by
    have hnil : Laid indent [] [] ([] ++ []) := .nil (by simp)
    simpa using hnil
  | [n], h => by
    have htext := Node.toList_text indent 0 (h n (List.mem_cons_self ..))
    have hlast : Laid indent [] [n] ([] ++ (n.core indent 0 ++ '\n' :: ([] ++ []))) :=
      .cons (by simp) n 0 (.nil (by simp))
    simpa [htext] using hlast
  | n :: m :: ns, h => by
    have htext := Node.toList_text indent 0 (h n (List.mem_cons_self ..))
    have hrest := laid_separated indent (m :: ns) fun k hk => h k (List.mem_cons_of_mem _ hk)
    have hline : ∀ ch ∈ ['\n'], Cursor.isSeparator ch = true := List.all_eq_true.1 (by decide)
    have hnext : Laid indent [] (n :: m :: ns) ([] ++ (n.core indent 0 ++ '\n' :: (['\n'] ++
        (String.intercalate "\n" ((m :: ns).map (Node.text indent 0))).toList))) :=
      .cons (by simp) n 0 (hrest.separated hline)
    rw [List.map_cons, List.map_cons, String.intercalate_cons_cons, String.toList_append,
      String.toList_append, htext]
    simpa using hnext

theorem parse_separated {ns : List Node} {Q : List Statement → Prop} (h : ParsesAll ns Q)
    (file : FileId) (indent : Nat) :
    ∃ ss, parse file (String.intercalate "\n" (ns.map (Node.text indent 0))) = .ok ss ∧
      Statement.overflowsAll ss = [] ∧ Q ss :=
  parse_of_laid h file (laid_separated indent ns h.words_ne_nil)

/-! ## One file -/

def Entry.Restores (c : Collection) (o : Record) (e : Entry) : Prop :=
  e.collection = c ∧ Json.Recovers (.obj o) (.obj e.record) ∧
    ((Json.obj o).isTame = true → Item.write c e.record = Item.write c o)

structure Collection.Fits (c : Collection) (rs : List Record) : Prop where
  valid : ∀ o ∈ rs, (Json.obj o).isValid = true
  identified : ∀ o ∈ rs, c.identifies o = true
  single : c.isList = false → rs.length ≤ 1

theorem Collection.Fits.of_perm {c : Collection} {rs rs' : List Record} (h : c.Fits rs)
    (hp : rs'.Perm rs) : c.Fits rs' :=
  ⟨fun o ho => h.valid o (hp.mem_iff.1 ho), fun o ho => h.identified o (hp.mem_iff.1 ho),
    fun hl => by rw [hp.length_eq]; exact h.single hl⟩

theorem parsesAll_of_forall₂ {α : Type} {P : α → Statement → Prop} {xs : List α} {ns : List Node}
    (h : List.Forall₂ (fun x n => n.Parses (P x)) xs ns) : ParsesAll ns (List.Forall₂ P xs) := by
  induction h with
  | nil => exact .nil
  | cons hn _ ih => exact hn.imp fun s hs => ih.imp fun ss hss => .cons hs hss

theorem parses_records {c : Collection} (hc : c ∈ Collection.all) {rs : List Record}
    (hvalid : ∀ o ∈ rs, (Json.obj o).isValid = true) (hid : ∀ o ∈ rs, c.identifies o = true) :
    ParsesAll (rs.map (Item.write c)) (List.Forall₂ (Item.Returned c) rs) := by
  refine parsesAll_of_forall₂ (List.forall₂_map_right_iff.2 (List.forall₂_same.2 fun o ho => ?_))
  exact Item.write_returns hc (hvalid o ho) (hid o ho)

theorem yields_compile {i : Item} {Q : Record → Prop} (h : Gives i.record Q) :
    Yields i.compile fun r => ∃ o, r = some o ∧ Q o := fun ctx => h { ctx with scope := .empty }

/-- Items of one collection are compiled to an entry each. -/
theorem yields_compileItems {c : Collection} {P : Record → Record → Prop} {rs : List Record}
    {items : List Item} (h : List.Forall₂ (fun o i => i.collection = c ∧ Gives i.record (P o)) rs items)
    (seen : List Collection) (hsingle : c.isList = false → rs.length ≤ 1 ∧ c ∉ seen) :
    Yields (compileItems seen items) fun es =>
    List.Forall₂ (fun o e => e.collection = c ∧ P o e.record) rs es := by
  induction h with
  | nil => exact yields_pure .nil
  | @cons o i rs items hi hmore ih =>
    rw [compileItems]
    refine (yields_compile hi.2).bind ?_
    rintro _ ⟨r, rfl, hr⟩
    cases hl : c.isList with
    | true =>
      simp only [hi.1, hl, if_true]
      refine (ih fun hl' => by rw [hl] at hl'; cases hl').bind fun es hes =>
        yields_pure (.cons ⟨rfl, hr⟩ hes)
    | false =>
      obtain ⟨hlength, hseen⟩ := hsingle hl
      obtain rfl : rs = [] := List.length_eq_zero_iff.1 (by rw [List.length_cons] at hlength; omega)
      cases hmore
      have hnew : seen.contains c = false := by rwa [List.contains_eq_mem, decide_eq_false_iff_not]
      simp only [hi.1, hl, hnew, Bool.false_eq_true, if_false, compileItems, pure_bind]
      exact yields_pure (.cons ⟨rfl, hr⟩ .nil)

theorem items_of_compiledTo {α : Type} {c : α → Collection} {Q : α → Record → Prop} {xs : List α}
    {ss : List Statement} (h : List.Forall₂ (fun x s => Item.CompiledTo (c x) (Q x) s) xs ss) :
    Item.reports ss = [] ∧
      List.Forall₂ (fun x i => i.collection = c x ∧ Gives i.record (Q x)) xs (Item.items ss) := by
  induction h with
  | nil => exact ⟨rfl, .nil⟩
  | @cons x s xs ss hs _ ih =>
    obtain ⟨i, hi, hcollection, hgives⟩ := hs
    have hreports : Item.reports (s :: ss) = Item.reports ss := by
      simp only [Item.reports, List.flatMap_cons, hi, List.singleton_append]
      exact List.filterMap_cons_none rfl
    have hitems : Item.items (s :: ss) = i :: Item.items ss := by
      simp only [Item.items, List.flatMap_cons, hi, List.singleton_append]
      exact List.filterMap_cons_some rfl
    rw [hreports, hitems]
    exact ⟨ih.1, .cons ⟨hcollection, hgives⟩ ih.2⟩

/-- The text of records is compiled to their entries, without a report. -/
theorem compile_content {c : Collection} (hc : c ∈ Collection.all) {rs : List Record} (h : c.Fits rs)
    (file : FileId) (indent : Nat) : (∃ ss, parse file (Output.content c indent rs) = .ok ss) ∧
      (compile file (Output.content c indent rs)).diagnostics = [] ∧
      List.Forall₂ (Entry.Restores c) rs (compile file (Output.content c indent rs)).entries := by
  obtain ⟨ss, hparse, hover, hss⟩ :=
    parse_separated (parses_records hc h.valid h.identified) file indent
  rw [List.map_map] at hparse
  have hparse' : parse file (Output.content c indent rs) = .ok ss := hparse
  obtain ⟨hreports, hitems⟩ := items_of_compiledTo hss
  obtain ⟨es, ctx, hrun, hquiet, hes⟩ :=
    yields_compileItems hitems [] (fun hl => ⟨h.single hl, by simp⟩) ⟨.empty, []⟩
  have hcompile : compile file (Output.content c indent rs) = ⟨es, []⟩ := by
    simp only [compile, hparse', Compilation.ofStatements, hreports, hrun, hquiet, hover, List.map_nil,
      List.append_nil]
  rw [hcompile]
  exact ⟨⟨ss, hparse'⟩, rfl, hes⟩

/-! ## All files -/

/-- Each file holds the entries of one collection, and nothing is reported. -/
structure Compilation.Holds (compiled : Compilation) (c : Collection) (rs : List Record) : Prop where
  quiet : compiled.diagnostics = []
  restores : List.Forall₂ (Entry.Restores c) rs compiled.entries
  single : c.isList = false → rs.length ≤ 1

theorem keepFirst_of_one {c : Collection} {es : List Entry} (hes : ∀ e ∈ es, e.collection = c)
    {seen : List Collection} (hseen : c ∉ seen) (hsingle : c.isList = false → es.length ≤ 1) :
    ∃ seen', Compilation.keepFirst seen es = (es, [], seen') ∧ ∀ d ∈ seen', d ∈ seen ∨ d = c := by
  induction es with
  | nil => exact ⟨seen, rfl, fun d hd => .inl hd⟩
  | cons e es ih =>
    have he := hes e (List.mem_cons_self ..)
    have hmore := fun e he => hes e (List.mem_cons_of_mem _ he)
    cases hl : c.isList with
    | true =>
      obtain ⟨seen', hkeep, hmem⟩ := ih hmore fun hl' => by rw [hl] at hl'; cases hl'
      exact ⟨seen', by simp only [Compilation.keepFirst, he, hl, if_true, hkeep], hmem⟩
    | false =>
      have hlength := hsingle hl
      obtain rfl : es = [] := List.length_eq_zero_iff.1 (by rw [List.length_cons] at hlength; omega)
      refine ⟨c :: seen, by simp [Compilation.keepFirst, he, hl, hseen], fun d hd => ?_⟩
      rcases List.mem_cons.1 hd with rfl | hd
      · exact .inr rfl
      · exact .inl hd

/-- Compilations of different collections are merged by putting one after the other. -/
theorem merge_of_holds {cs : List Collection} {compiled : List Compilation}
    {kept : Collection → List Record} (h : List.Forall₂ (fun c d => d.Holds c (kept c)) cs compiled)
    (hn : cs.Nodup) (seen : List Collection) (hseen : ∀ c ∈ cs, c ∉ seen) :
    (Compilation.merge seen compiled).diagnostics = [] ∧
      (Compilation.merge seen compiled).entries = compiled.flatMap Compilation.entries := by
  induction h generalizing seen with
  | nil => exact ⟨rfl, rfl⟩
  | @cons c d cs compiled hd _ ih =>
    rw [List.nodup_cons] at hn
    have hes : ∀ e ∈ d.entries, e.collection = c := by
      intro e he
      obtain ⟨o, -, ho⟩ := exists_of_forall₂ hd.restores he
      exact ho.1
    obtain ⟨seen', hkeep, hmem⟩ := keepFirst_of_one hes (hseen c (List.mem_cons_self ..))
      fun hl => by rw [← hd.restores.length_eq]; exact hd.single hl
    have hseen' : ∀ b ∈ cs, b ∉ seen' := by
      intro b hb hb'
      rcases hmem b hb' with hb' | rfl
      · exact hseen b (List.mem_cons_of_mem _ hb) hb'
      · exact hn.1 hb
    obtain ⟨hdiagnostics, hentries⟩ := ih hn.2 seen' hseen'
    simp only [Compilation.merge, hkeep, hd.quiet, hdiagnostics, hentries, List.append_nil,
      List.mergeSort_nil, List.flatMap_cons]
    exact ⟨trivial, trivial⟩

/-- Of merged compilations, those of a collection are the entries of its file. -/
theorem restores_filter {cs : List Collection} {compiled : List Compilation}
    {kept : Collection → List Record} (h : List.Forall₂ (fun c d => d.Holds c (kept c)) cs compiled)
    (hn : cs.Nodup) (c : Collection) : List.Forall₂ (Entry.Restores c) (if c ∈ cs then kept c else [])
      ((compiled.flatMap Compilation.entries).filter (·.collection == c)) := by
  induction h with
  | nil => exact .nil
  | @cons b d cs compiled hd _ ih =>
    rw [List.nodup_cons] at hn
    have hes : ∀ e ∈ d.entries, e.collection = b := by
      intro e he
      obtain ⟨o, -, ho⟩ := exists_of_forall₂ hd.restores he
      exact ho.1
    have hmore := ih hn.2
    rw [List.flatMap_cons, List.filter_append]
    by_cases hc : c = b
    · subst hc
      have hown : d.entries.filter (·.collection == c) = d.entries :=
        List.filter_eq_self.2 fun e he => by rw [hes e he, beq_self_eq_true]
      rw [if_neg hn.1, List.forall₂_nil_left_iff] at hmore
      rw [hmore, hown, List.append_nil, if_pos (List.mem_cons_self ..)]
      exact hd.restores
    · have hnone : d.entries.filter (·.collection == c) = [] :=
        List.filter_eq_nil_iff.2 fun e he => by rw [hes e he, beq_iff_eq]; exact Ne.symm hc
      rw [hnone, List.nil_append]
      simpa [List.mem_cons, hc] using hmore

end Worldbook
