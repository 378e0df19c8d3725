import Worldbook.Proofs.RoundTrip

/-!
# The forms of a record mean the same

A record has a block, and may have a row and the one-line form of its collection. Each of them is
one item of the collection and is compiled to the record, though the writer only ever uses the first
that there is. So in a batch of texts every record may be written in any of its forms: the
configuration stays the same.
-/

namespace Worldbook

open CompileM

/-! ## One record -/

namespace Item

/-- The node is one of the forms of a record. -/
inductive Surface (c : Collection) (o : Record) : Node → Prop
  | short {n : Node} (h : shortLine? c o = some n) : Surface c o n
  | row {n : Node} (h : row? c o = some n) : Surface c o n
  | block : Surface c o (Item.block c o)

theorem surface_write (c : Collection) (o : Record) : Surface c o (write c o) := by
  cases hshort : shortLine? c o with
  | some n => exact write_of_shortLine hshort ▸ .short hshort
  | none =>
    cases hrow : row? c o with
    | some n => exact write_of_row hshort hrow ▸ .row hrow
    | none => exact write_of_block hshort hrow ▸ .block

/-- The record is one that is written of a collection, and nothing of it is lost. -/
structure Keeps (c : Collection) (o : Record) : Prop where
  mem : c ∈ Collection.all
  tame : (Json.obj o).isTame = true
  identified : c.identifies o = true

/-- Every form of a record is read as an item of its collection, and compiled to the record. -/
theorem Surface.parses {c : Collection} {o : Record} {n : Node} (h : Surface c o n) (hk : Keeps c o) :
    n.Parses (CompiledTo c fun r => Json.Recovers (.obj o) (.obj r)) := by
  have hv := Json.isValid_of_isTame hk.tame
  obtain ⟨ws, skip, hlabels, hl⟩ := labelled hk.mem hk.identified
  cases h with
  | short h => exact (returns_shortLine hk.mem hv h).imp fun s hs => hs.imp fun r hr => hr.1
  | row h =>
    refine (parses_row hk.mem hv hlabels hl h).imp fun s hs => hs.imp ?_
    rintro _ rfl
    exact recovers_pairs hv hl.nodup
  | block =>
    refine (parses_block hk.mem hv hlabels hl).imp fun s hs => hs.imp ?_
    rintro _ ⟨r, hr, rfl⟩
    exact recovers_body hv hl.nodup hr

/-! ## One text -/

/-- The text holds the records one after the other, each in one of its forms. -/
def Presents (rs : List (Collection × Record)) (text : String) : Prop :=
  ∃ (indent : Nat) (ns : List Node), List.Forall₂ (fun p n => Surface p.1 p.2 n) rs ns ∧
    text = String.intercalate "\n" (ns.map (Node.text indent 0))

/-- The entry is one of the collection, and its record recovers the other. -/
def Declares (p : Collection × Record) (e : Entry) : Prop :=
  e.collection = p.1 ∧ Json.Recovers (.obj p.2) (.obj e.record)

theorem alone_of_gives {i : Item} {Q : Record → Prop} (h : Gives i.record Q) :
    ∃ o, i.alone = (some o, []) ∧ Q o := by
  obtain ⟨_, ctx, hrun, hquiet, o, rfl, ho⟩ := yields_compile h ⟨.empty, []⟩
  refine ⟨o, ?_, ho⟩
  rw [alone, hrun]
  exact congrArg _ hquiet

theorem entries_of_gives {rs : List (Collection × Record)} {is : List Item}
    (h : List.Forall₂ (fun p i => i.collection = p.1 ∧ Gives i.record fun r =>
      Json.Recovers (.obj p.2) (.obj r)) rs is) :
    is.flatMap (·.alone.2) = [] ∧ List.Forall₂ Declares rs (is.filterMap entry?) := by
  induction h with
  | nil => exact ⟨rfl, .nil⟩
  | @cons p i rs is hi _ ih =>
    obtain ⟨r, halone, hr⟩ := alone_of_gives hi.2
    have hentry : i.entry? = some ⟨i.collection, r, i.statement.span⟩ := by
      rw [Item.entry?, halone]; rfl
    rw [List.flatMap_cons, halone, ih.1, List.filterMap_cons_some hentry]
    exact ⟨rfl, .cons ⟨hi.1, hr⟩ ih.2⟩

end Item

open Item in
/-- A text of records is read as a statement for each, and reports repeated entries at most. -/
theorem Item.Presents.compiled {rs : List (Collection × Record)} {text : String} (h : Presents rs text)
    (hk : ∀ p ∈ rs, Keeps p.1 p.2) (file : FileId) : ∃ ss, parse file text = .ok ss ∧
      List.Forall₂ (fun p s => CompiledTo p.1 (fun r => Json.Recovers (.obj p.2) (.obj r)) s) rs ss ∧
      List.Forall₂ Declares rs (entries ss) ∧ (Worldbook.compile file text).entries = Entry.firstsAfter
      [] (entries ss) ∧
      (Worldbook.compile file text).diagnostics.Perm
        ((Entry.repeatsAfter [] (entries ss)).map Entry.duplicate) := by
  obtain ⟨indent, ns, hns, rfl⟩ := h
  have hparses : List.Forall₂ (fun (p : Collection × Record) n => n.Parses
      (CompiledTo p.1 fun r => Json.Recovers (.obj p.2) (.obj r))) rs ns := by
    induction hns with
    | nil => exact .nil
    | cons hn _ ih =>
      exact .cons (hn.parses (hk _ (List.mem_cons_self ..))) (ih fun p hp =>
        hk p (List.mem_cons_of_mem _ hp))
  obtain ⟨ss, hparse, hover, hss⟩ := parse_separated (parsesAll_of_forall₂ hparses) file indent
  obtain ⟨hreports, hitems⟩ := items_of_compiledTo hss
  obtain ⟨hquiet, hentries⟩ := entries_of_gives hitems
  obtain ⟨hfirsts, hperm⟩ := Compilation.ofStatements_entries ss
  rw [allReports, hreports, hquiet, hover] at hperm
  have hcompile : Worldbook.compile file (String.intercalate "\n" (ns.map (Node.text indent 0))) =
    .ofStatements ss := by
    rw [Worldbook.compile, hparse]
  rw [hcompile]
  exact ⟨ss, hparse, hss, hentries, hfirsts, by simpa [Item.entries] using hperm⟩

/-- A text of one record gives one entry, of its collection and with its meaning, and no report. -/
theorem Item.Surface.compiled {c : Collection} {o : Record} {n : Node} (h : Surface c o n)
    (hk : Keeps c o) (file : FileId) (indent : Nat) : ∃ s i e, parse file (n.text indent 0) = .ok [s] ∧
      outcomes s = [.ok i] ∧ i.collection = c ∧
      i.entry? = some e ∧ Worldbook.compile file (n.text indent 0) = ⟨[e], []⟩ ∧
      (Json.obj e.record).same (.obj o) = true := by
  have hpresents : Presents [(c, o)] (n.text indent 0) := ⟨indent, [n], .cons h .nil, by simp⟩
  obtain ⟨ss, hparse, hss, hentries, hfirsts, hperm⟩ := hpresents.compiled (by simpa using hk) file
  obtain ⟨s, rfl⟩ : ∃ s, ss = [s] := List.length_eq_one_iff.1 hss.length_eq.symm
  rcases hss with _ | ⟨⟨i, houtcomes, hcollection, hgives⟩, -⟩
  obtain ⟨r, halone, hr⟩ := alone_of_gives hgives
  have hentry : i.entry? = some ⟨i.collection, r, i.statement.span⟩ := by rw [Item.entry?, halone]; rfl
  have hone : entries [s] = [⟨i.collection, r, i.statement.span⟩] := by
    simp [entries, items, houtcomes, hentry]
  rw [hone] at hfirsts hperm
  refine ⟨s, i, _, hparse, houtcomes, hcollection, hentry, ?_, Json.same_of_recovers hk.tame hr⟩
  cases hcompile : Worldbook.compile file (n.text indent 0) with
  | mk es ds =>
    have hes : es = [⟨i.collection, r, i.statement.span⟩] := by
      simpa [hcompile, Entry.firstsAfter_cons, Entry.repeats] using hfirsts
    have hds : ds = [] := by simpa [hcompile, Entry.repeatsAfter_cons, Entry.repeats] using hperm
    rw [hes, hds]

/-! ## Batches -/

theorem Binary64.same_of_same {x y z : Binary64} (hx : x.same z = true) (hy : y.same z = true) :
    x.same y = true := by
  cases z with
  | infinite c =>
    cases x with
    | finite => cases hx
    | infinite a =>
      cases y with
      | finite => cases hy
      | infinite b => simp_all [same]
  | finite c r hr =>
    cases x with
    | infinite => cases hx
    | finite a p hp =>
      cases y with
      | infinite => cases hy
      | finite b q hq =>
        simp only [same, Bool.and_eq_true, Bool.or_eq_true, beq_iff_eq] at hx hy ⊢
        obtain ⟨rfl, hx⟩ := hx
        obtain ⟨rfl, hy⟩ := hy
        refine ⟨rfl, ?_⟩
        rcases hx with rfl | hx
        · exact hy.imp_left Eq.symm
        · exact .inr hx

theorem Number.same_of_same {a b c : Number} (ha : a.same c = true) (hb : b.same c = true) :
    a.same b = true := by
  cases c with
  | int k =>
    cases a with
    | float => cases ha
    | int i =>
      cases b with
      | float => cases hb
      | int j => simp_all [same]
  | float z =>
    cases a with
    | int => cases ha
    | float x =>
      cases b with
      | int => cases hb
      | float y => exact Binary64.same_of_same ha hb

/-- Two values that recover a tame one mean the same. -/
theorem Json.same_of_recovered {x y z : Json} (ht : x.isTame = true) (hy : Recovers x y)
    (hz : Recovers x z) : y.same z = true := by
  induction x using induction generalizing y z with
  | null => cases y <;> cases z <;> simp_all [Recovers, same]
  | bool b => cases y <;> cases z <;> simp_all [Recovers, same]
  | str s => rw [recovers_str.1 hy, recovers_str.1 hz]; simp [same]
  | num m =>
    cases y with
    | num n =>
      cases z with
      | num k => exact Number.same_of_same hy hz
      | _ => cases hz
    | _ => cases hy
  | arr xs ih =>
    obtain ⟨ys, rfl, hys⟩ := recovers_arr.1 hy
    obtain ⟨zs, rfl, hzs⟩ := recovers_arr.1 hz
    rw [isTame, every_arr] at ht
    rw [same, sameItems_iff]
    -- These two are about the whole lists, which the induction takes apart.
    clear hy hz
    induction hys generalizing zs with
    | nil => cases hzs; exact .nil
    | cons hxy _ ihs =>
      cases hzs with
      | cons hxz hzs =>
        have hhead := ih _ (List.mem_cons_self ..) (ht.2 _ (List.mem_cons_self ..)) hxy hxz
        exact .cons hhead
          (ihs (fun v hv => ih v (List.mem_cons_of_mem _ hv)) ⟨rfl, fun v hv =>
            ht.2 v (List.mem_cons_of_mem _ hv)⟩
          _ hzs)
  | obj xs ih =>
    obtain ⟨ys, rfl⟩ := recovers_obj_exists hy
    obtain ⟨zs, rfl⟩ := recovers_obj_exists hz
    have hkeys := fun key =>
      (mem_keys_of_recovers ht hy key).trans (mem_keys_of_recovers ht hz key).symm
    rw [same, Bool.and_eq_true, beq_iff_eq, sameMembers_iff]
    refine ⟨length_eq_of_keys hz.1 hy.1 hkeys, fun m hm => ?_⟩
    obtain ⟨n, hn, hkey⟩ :=
      List.mem_map.1 ((mem_keys_of_recovers ht hy m.1).1 (List.mem_map_of_mem (f := Prod.fst) hm))
    obtain ⟨v, hv, hrv⟩ := get?_of_recovers ht hy hn
    obtain ⟨w, hw, hrw⟩ := get?_of_recovers ht hz hn
    rw [hkey, Record.get?_of_mem hy.1 hm, Option.some.injEq] at hv
    rw [hkey] at hw
    refine ⟨w, hw, ?_⟩
    rw [hv]
    exact ih n hn ((every_obj.1 ht).2 n hn) hrv hrw

namespace Entry

def Agrees (e f : Entry) : Prop :=
  e.collection = f.collection ∧ (Json.obj e.record).same (.obj f.record) = true

theorem any_of_agrees {es fs : List Entry} (h : List.Forall₂ Agrees es fs) (c : Collection) :
    es.any (·.collection == c) = fs.any (·.collection == c) := by
  induction h with
  | nil => rfl
  | cons he _ ih => rw [List.any_cons, List.any_cons, he.1, ih]

/-- Which entries are the first of their collection does not depend on what they say. -/
theorem firstsAfter_of_agrees {before before' es fs : List Entry}
    (hb : List.Forall₂ Agrees before before') (h : List.Forall₂ Agrees es fs) :
    List.Forall₂ Agrees (firstsAfter before es) (firstsAfter before' fs) := by
  induction h generalizing before before' with
  | nil => exact .nil
  | @cons e f es fs he _ ih =>
    have hrepeats : repeats before e = repeats before' f := by
      rw [repeats, repeats, he.1, any_of_agrees hb]
    rw [firstsAfter_cons, firstsAfter_cons, hrepeats]
    refine List.rel_append ?_ (ih (List.rel_append hb (.cons he .nil)))
    split
    · exact .nil
    · exact .cons he .nil

end Entry

/-- Compilations whose entries agree have one configuration. -/
theorem Compilation.config_same_of_agrees {c d : Compilation}
    (h : List.Forall₂ Entry.Agrees c.entries d.entries) : c.config.same d.config = true := by
  refine Json.same_of_collections (by decide) fun collection _ => ?_
  have hfilter : List.Forall₂ Entry.Agrees (c.entries.filter (·.collection.key == collection.key))
      (d.entries.filter (·.collection.key == collection.key)) :=
    List.rel_filter (fun e f he => by simp only [he.1]) h
  rw [collectionValue?, collectionValue?]
  generalize c.entries.filter (·.collection.key == collection.key) = es at hfilter
  generalize d.entries.filter (·.collection.key == collection.key) = fs at hfilter
  cases hfilter with
  | nil => exact .none
  | cons hfirst hmore =>
    refine .some ?_
    split
    · rw [Json.same, Json.sameItems_iff]
      exact .cons hfirst.2
        (List.forall₂_map_left_iff.2 (List.forall₂_map_right_iff.2 (hmore.imp fun _ _ he => he.2)))
    · exact hfirst.2

theorem Item.Presents.agree {rs : List (Collection × Record)} {text text' : String}
    (h : Presents rs text) (h' : Presents rs text') (hk : ∀ p ∈ rs, Keeps p.1 p.2)
    (file file' : FileId) :
    List.Forall₂ Entry.Agrees (Worldbook.compile file text).entries
      (Worldbook.compile file' text').entries := by
  obtain ⟨ss, -, -, hss, hentries, -⟩ := h.compiled hk file
  obtain ⟨ts, -, -, hts, hentries', -⟩ := h'.compiled hk file'
  rw [hentries, hentries']
  refine Entry.firstsAfter_of_agrees .nil ?_
  generalize entries ss = es at hss
  generalize entries ts = fs at hts
  clear h h'
  induction hss generalizing fs with
  | nil => cases hts; exact .nil
  | cons he _ ih =>
    cases hts with
    | cons hf hts =>
      have htame := (hk _ (List.mem_cons_self ..)).tame
      exact .cons ⟨he.1.trans hf.1.symm, Json.same_of_recovered htame he.2 hf.2⟩
        (ih (fun p hp => hk p (List.mem_cons_of_mem _ hp)) _ hts)

/-- Each form of a record that is kept is one item of its collection, compiled to
that record without a report; the writer uses one of them. A batch of texts has
the same configuration in whichever of their forms the records stand in it. -/
theorem surfaces_agree :
    (∀ {c : Collection} {o : Record}, Item.Keeps c o → Item.Surface c o (Item.write c o) ∧
      ∀ {n : Node}, Item.Surface c o n → ∀ (file : FileId) (indent : Nat), ∃ s i e,
        parse file (n.text indent 0) = .ok [s] ∧ Item.outcomes s = [.ok i] ∧ i.collection = c ∧
        i.entry? = some e ∧
        compile file (n.text indent 0) = ⟨[e], []⟩ ∧ (Json.obj e.record).same (.obj o) = true) ∧
    ∀ {batch : List (List (Collection × Record))} {files files' : List (FileId × String)},
      (∀ rs ∈ batch, ∀ p ∈ rs, Item.Keeps p.1 p.2) →
      List.Forall₂ (fun rs f => Item.Presents rs f.2) batch files →
      List.Forall₂ (fun rs f => Item.Presents rs f.2) batch files' →
      (compileFiles files).config.same (compileFiles files').config = true := by
  refine ⟨fun hk => ⟨Item.surface_write _ _, fun hn file indent => hn.compiled hk file indent⟩, ?_⟩
  intro batch files files' hk hfiles hfiles'
  apply Compilation.config_same_of_agrees
  rw [compileFiles_eq, compileFiles_eq]
  refine Entry.firstsAfter_of_agrees .nil ?_
  induction hfiles generalizing files' with
  | nil =>
    cases hfiles'
    exact .nil
  | cons hf _ ih =>
    cases hfiles' with
    | cons hf' hfiles' =>
      rw [List.map_cons, List.map_cons, List.flatMap_cons, List.flatMap_cons]
      exact List.rel_append (hf.agree hf' (hk _ (List.mem_cons_self ..)) _ _)
        (ih (fun rs hrs => hk rs (List.mem_cons_of_mem _ hrs)) hfiles')

def axes : Collection :=
  .keyed "axis" "axisDefinitions" "axis_definitions" ["axis_definitions", "axes"] "id" (some "name")

def order : Record :=
  [("id", .str "order"), ("lowTag", .str "end"), ("highTag", .str "law"),
    ("name", .str "Law and order")]

theorem surfaces_agree_order :
    Item.Keeps axes order ∧ ∃ short row, Item.shortLine? axes order = some short ∧
    Item.row? axes order = some row ∧
    (∃ e, compile 0 (row.text 2 0) = ⟨[e], []⟩ ∧ (Json.obj e.record).same (.obj order) = true) ∧
    (compileFiles [(0, short.text 2 0)]).config.same
      (compileFiles [(1, (Item.block axes order).text 4 0)]).config = true := by
  have hkeeps : Item.Keeps axes order := ⟨by decide, by decide, by decide⟩
  obtain ⟨short, hshort⟩ : ∃ n, Item.shortLine? axes order = some n := ⟨_, rfl⟩
  obtain ⟨row, hrow⟩ : ∃ n, Item.row? axes order = some n := ⟨_, rfl⟩
  obtain ⟨hforms, hbatch⟩ := surfaces_agree
  obtain ⟨s, i, e, -, -, -, -, hcompile, hsame⟩ := (hforms hkeeps).2 (.row hrow) 0 2
  refine ⟨hkeeps, short, row, hshort, hrow, ⟨e, hcompile, hsame⟩, ?_⟩
  have hone : ∀ {n}, Item.Surface axes order n →
    ∀ indent, Item.Presents [(axes, order)] (n.text indent 0) :=
    fun hn indent => ⟨indent, [_], .cons hn .nil, by simp⟩
  have hall : ∀ rs ∈ [[(axes, order)]], ∀ p ∈ rs, Item.Keeps p.1 p.2 := by simpa using hkeeps
  exact hbatch hall (.cons (hone (.short hshort) 2) .nil) (.cons (hone .block 4) .nil)

end Worldbook
