import Worldbook.Proofs.Identity
import Worldbook.Proofs.Objects

/-!
# Records of a collection come back

A record is written in the one-line form of its collection, as a row of pairs or as a block. In
each form its text is one item of the collection, and is compiled to a record that recovers it and
that is written in the same form. The main result is `Item.write_returns`.
-/

namespace Worldbook

open Written CompileM

/-! ## Collections -/

namespace Collection

/-- The names of blocks can lead a line and a block, and tell the collections apart. -/
theorem block_leads : ∀ c ∈ all, ofBlock? c.block = some c ∧ isName c.block.toList = true ∧
    c.block ∉ specialWords ∧
    c.block ∉ ["mutate", "from", "in"] ∧ c.block ∉ lineWords := by decide

/-- Only records of keyed collections have labels, of which only tags have no name. -/
theorem labels_of_all : ∀ c ∈ all, c.requiredId? = c.idField ∧ (c.idField = none → c.nameField = none) ∧
    (∀ field ∈ c.nameField, c.idField ≠ some field) ∧
    (c.kind = .keyed → c.isList = true ∧ c.idField.isSome = true ∧
      (c.block = "tag" ∨ c.nameField.isSome = true)) := by
  decide

theorem short_of_all :
    ∀ c ∈ all, (c.block = "tag" → c.isList = true) ∧ (c.block = "axis" → c.idField = some "id") ∧
    (c.block = "relationship_kind" → c.idField = some "kind") := by decide

end Collection

namespace Item

def CompiledTo (c : Collection) (Q : Record → Prop) (s : Statement) : Prop :=
  ∃ i : Item, outcomes s = [.ok i] ∧ i.collection = c ∧ Gives i.record Q

theorem CompiledTo.imp {c : Collection} {P Q : Record → Prop} {s : Statement} (h : CompiledTo c P s)
    (hpq : ∀ o, P o → Q o) : CompiledTo c Q s := by
  obtain ⟨i, houtcomes, hcollection, hgives⟩ := h
  exact ⟨i, houtcomes, hcollection, hgives.imp hpq⟩

def Returned (c : Collection) (o : Record) : Statement → Prop :=
  CompiledTo c fun o' => Json.Recovers (.obj o) (.obj o') ∧
    ((Json.obj o).isTame = true → write c o' = write c o)

theorem outcomes_block {c : Collection} (hc : c ∈ Collection.all) (labels : List Value)
    (body : List Statement) (span : Span) :
    outcomes (.block c.block false labels body span) =
      [.ok ⟨.block, c, .block c.block false labels body span⟩] := by
  have hblock := (Collection.block_leads c hc).1
  simp [outcomes, Statement.isQuoted, containerOf?, ofStatement?, hblock]

theorem outcomes_row {c : Collection} (hc : c ∈ Collection.all) (hlist : c.isList = true)
    {vs : List Value} {s : Statement} (hs : s.IsLine c.block vs none) (hne : vs ≠ []) :
    outcomes s = [.ok ⟨.row, c, s⟩] := by
  have hblock := (Collection.block_leads c hc).1
  cases hs with
  | bare => exact absurd rfl hne
  | field labels value span =>
    simp [outcomes, Statement.isQuoted, containerOf?, ofStatement?, hblock, Option.filter_some, hlist]

/-! ## One-line forms -/

def kindsWord : List String → String
  | [single] => string single
  | ss => value (.arr (ss.map .str))

theorem kinds?_eq (o : Record) (key : String) :
    kinds? o key = ((o.get? key).bind strings?).map kindsWord := by
  rw [kinds?]
  cases o.get? key with
  | none => rfl
  | some v =>
    rw [Option.bind_eq_bind, Option.bind_some, Option.bind_some]
    cases hs : strings? v with
    | none => rfl
    | some ss =>
      obtain ⟨hne, rfl⟩ := strings?_eq_some.1 hs
      match ss with
      | [] => exact absurd rfl hne
      | [_] => rfl
      | _ :: _ :: _ => rfl

theorem description?_eq_some {o : Record} {key : String} {ws : List String} :
    description? o key = some ws ↔
    ∃ t, optionalText? o key = some t ∧ (t.map quote).toList = ws := by
  simp [description?, Option.bind_eq_some_iff]

section
variable {o o' : Record} (h : Alike o o')
include h

theorem description?_of_alike (key : String) : description? o' key = description? o key := by
  rw [description?, description?, h.optionalText?]

theorem kinds?_of_alike (key : String) : kinds? o' key = kinds? o key := by
  rw [kinds?_eq, kinds?_eq, h.strings?]

theorem tagLine?_of_alike : tagLine? o' = tagLine? o := by
  simp only [tagLine?, h.hasOnly, h.text?, description?_of_alike h]

theorem axisLine?_of_alike : axisLine? o' = axisLine? o := by
  simp only [axisLine?, h.hasOnly, h.text?, description?_of_alike h]

theorem relationshipKindLine?_of_alike : relationshipKindLine? o' = relationshipKindLine? o := by
  simp only [relationshipKindLine?, h.hasOnly, h.text?, description?_of_alike h, kinds?_of_alike h]

/-- A record has the one-line form of its collection, or has not, like what recovers it. -/
theorem isSome_shortLine? (c : Collection) : (shortLine? c o').isSome = (shortLine? c o).isSome := by
  unfold shortLine?
  split
  · rw [tagLine?_of_alike h]
  · rw [axisLine?_of_alike h]
  · rw [relationshipKindLine?_of_alike h]
  · exact h.isSome_relationship? _ _
  · rfl

end

theorem tagLine?_eq_some {o : Record} {n : Node} : tagLine? o = some n ↔
    o.hasOnly ["tag", "category", "rarity", "description"] = true ∧ ∃ tag category rarity description,
      text? o "tag" = some tag ∧ text? o "category" = some category ∧ text? o "rarity" = some rarity ∧
      optionalText? o "description" = some description ∧
      Node.line ("tag" :: string tag :: string category :: string rarity ::
        (description.map quote).toList) = n := by
  rw [tagLine?]
  cases o.hasOnly ["tag", "category", "rarity", "description"] with
  | false => simp
  | true => simp [Option.bind_eq_some_iff, description?_eq_some]

theorem axisLine?_eq_some {o : Record} {n : Node} : axisLine? o = some n ↔
    o.hasOnly ["id", "name", "lowTag", "highTag", "description"] = true ∧
    ∃ id name low high description,
      text? o "id" = some id ∧ optionalText? o "name" = some name ∧ text? o "lowTag" = some low ∧
      text? o "highTag" = some high ∧ optionalText? o "description" = some description ∧
      Node.line ("axis" :: (string id :: ((name.map quote).toList ++ [string low])) ++
        "->" :: string high :: (description.map quote).toList) = n := by
  rw [axisLine?]
  cases o.hasOnly ["id", "name", "lowTag", "highTag", "description"] with
  | false => simp
  | true => simp [Option.bind_eq_some_iff, description?_eq_some]

theorem relationshipKindLine?_eq_some {o : Record} {n : Node} : relationshipKindLine? o = some n ↔
    o.hasOnly ["kind", "srcKinds", "dstKinds", "description"] = true ∧
    ∃ kind sources targets description,
      text? o "kind" = some kind ∧ (o.get? "srcKinds").bind strings? = some sources ∧
      (o.get? "dstKinds").bind strings? = some targets ∧ optionalText? o "description" =
      some description ∧
      Node.line ("relationship_kind" :: [string kind, kindsWord sources] ++
        "->" :: kindsWord targets :: (description.map quote).toList) = n := by
  rw [relationshipKindLine?]
  cases o.hasOnly ["kind", "srcKinds", "dstKinds", "description"] with
  | false => simp
  | true =>
    simp only [kinds?_eq]
    generalize (o.get? "srcKinds").bind strings? = sources
    generalize (o.get? "dstKinds").bind strings? = targets
    simp [Option.bind_eq_some_iff, description?_eq_some]

theorem word_quotes {t : Option String} : ∀ w ∈ t.map quote, Word w fun v => ∃ s ∈ t, v.Quotes s := by
  rintro _ hw
  obtain ⟨s, hs, rfl⟩ := Option.map_eq_some_iff.1 hw
  exact (word_quote s).imp fun v hv => ⟨s, hs, hv⟩

/-! ## Blocks of short lines -/

def shortKeys : List String := ["name", "lowTag", "highTag", "description", "srcKinds", "dstKinds"]

def Shortens (s : Statement) (m : String × Json) : Prop :=
  ∃ v, s = Statement.shorthand m.1 v ∧ v.Spells m.2 ∧ m.1 ∈ shortKeys

theorem fields_shorthands {ss : List Statement} {ps : Record} (h : List.Forall₂ Shortens ss ps)
    (r : Record) (hn : (r ++ ps).keys.Nodup) :
    Body.fields (Statement.children ss) r = pure (r ++ Json.rereadMembers ps) := by
  induction h generalizing r with
  | nil =>
    rw [Statement.children_nil, Json.rereadMembers, List.append_nil]
    rfl
  | @cons s m ss ps hs _ ih =>
    obtain ⟨key, x⟩ := m
    obtain ⟨v, rfl, hv, hk⟩ := hs
    have hnew : key ∉ r.keys := by
      rw [Record.keys_append, Record.keys_cons] at hn
      exact fun hc => (List.disjoint_of_nodup_append hn) hc (List.mem_cons_self ..)
    have hkey : ∀ k ∈ shortKeys, Value.referenceKeys.contains k = false ∧ k ≠ "create" ∧
      k ≠ "let" ∧ k ≠ "var" ∧
        k ≠ "variable" := by decide
    obtain ⟨href, hcreate, hlet, hvar, hvariable⟩ := hkey key hk
    have hunder : v.SpellsUnder key x :=
      ⟨hv, fun scope => by rw [Value.underKey, href, if_neg (by simp), hv.literal]⟩
    have hpart : Body.part (Statement.shorthand key v, (Statement.shorthand key v).nested) r =
        pure (r ++ [(key, x.reread)]) := by
      simp [Statement.shorthand, Body.part, Body.field, hcreate, hlet, hvar, hvariable,
        fieldValue_eq hunder, setField_eq hnew]
    rw [Statement.children_cons, Body.fields, thread, hpart, pure_bind, ← Body.fields,
      ih _ (by simpa using hn), Json.rereadMembers, List.append_assoc]
    rfl

theorem unlabelled_eq {front : Record} (place : String → Span) {r : Record}
    (h : ∀ key ∈ r.keys, key ∉ front.keys) : unlabelled front place r = pure r := by
  induction r with
  | nil => rfl
  | cons m r ih =>
    obtain ⟨key, x⟩ := m
    have hkey := Record.get?_eq_none_iff.2 (h key (List.mem_cons_self ..))
    simp only [unlabelled, hkey, ih fun k hk => h k (List.mem_cons_of_mem _ hk), pure_bind]

theorem gives_blockRecord {c : Collection} {labels : List Value} {front : Record}
    {body : List Statement} {span : Span} {Q : Record → Prop}
    (hlabels : labelFields c 0 labels = pure front)
    (hbody : Yields (Body.fields (Statement.children body) []) Q)
    (hnew : ∀ r, Q r → ∀ key ∈ r.keys, key ∉ front.keys)
    (hid : ∀ field ∈ c.requiredId?, field ∈ front.keys) :
    Gives (blockRecord c labels body span) fun o' => ∃ r, Q r ∧ o' = front ++ r := by
  rw [blockRecord, hlabels, pure_bind]
  refine (gives_lift hbody).bind fun r hr => ?_
  rw [unlabelled_eq _ (hnew r hr), liftM_pure, pure_bind]
  cases hc : c.requiredId? with
  | none => exact gives_pure ⟨r, hr, rfl⟩
  | some field =>
    have hhas : Record.has (front ++ r) field = true := by
      rw [Record.has_iff, Record.keys_append]
      exact List.mem_append_left _ (hid field hc)
    simp only [hhas, if_true]
    exact gives_pure ⟨r, hr, rfl⟩

theorem labelFields_one {c : Collection} {field id : String} {label : Value}
    (hf : c.idField = some field) (h : label.text? = some id) :
    labelFields c 0 [label] = pure [textField field id] := by
  simp [labelFields, Collection.labelFields, hf, h]

theorem write_of_shortLine {c : Collection} {o : Record} {n : Node} (h : shortLine? c o = some n) :
    write c o = n := by
  rw [write, h]

theorem rereadMembers_arranged (o : Record) (keys : List String) :
    Json.rereadMembers (o.arranged keys) = o.reread keys := by
  induction keys with
  | nil => rfl
  | cons key keys ih =>
    cases h : o.get? key with
    | none => rw [Record.arranged_of_none h, Record.reread_of_none h, ih]
    | some x => rw [Record.arranged_of_some h, Record.reread_of_some h, Json.rereadMembers, ih]

/-- A short line whose block gives all other fields is read back. -/
theorem returned_of_shorthands {c : Collection} (hc : c ∈ Collection.all) {o : Record}
    (hv : (Json.obj o).isValid = true) {field id : String} {keys : List String}
    (hf : c.idField = some field) (hid : text? o field = some id)
    (hall : o.hasOnly (field :: keys) = true) (hn : (field :: keys).Nodup) {label : Value}
    (hlabel : label.text? = some id) {ss : List Statement}
    (hss : List.Forall₂ Shortens ss (o.arranged keys))
    (hagain : ∀ o', Alike o o' → shortLine? c o' = shortLine? c o) {n : Node}
    (hline : shortLine? c o = some n) (span : Span) :
    Returned c o (.block c.block false [label] ss span) := by
  have hnodup : (o.arranged keys).keys.Nodup := by
    rw [← Json.keys_rereadMembers, rereadMembers_arranged]
    exact Record.nodup_reread (List.nodup_cons.1 hn).2
  have hr : Rewritten o (o.reread (field :: keys)) := rewritten_reread hall hn rfl
  refine ⟨_, outcomes_block hc _ _ _, rfl, ?_⟩
  refine (gives_blockRecord (Q := (· = o.reread keys)) (labelFields_one hf hlabel) ?_ ?_ ?_).imp ?_
  · rw [fields_shorthands hss [] hnodup, rereadMembers_arranged]
    exact yields_pure rfl
  · rintro _ rfl key hk
    rw [Record.keys_reread] at hk
    have hne : key ≠ field := by
      rintro rfl
      exact (List.nodup_cons.1 hn).1 (List.mem_of_mem_filter hk)
    simpa [textField] using hne
  · intro f hreq
    rw [(Collection.labels_of_all c hc).1, hf, Option.mem_some_iff] at hreq
    simp [textField, hreq]
  · rintro _ ⟨_, rfl, rfl⟩
    rw [show [textField field id] ++ o.reread keys =
      o.reread (field :: keys) from (Record.reread_text hid keys).symm]
    refine ⟨hr.recovers hv, fun ht => ?_⟩
    rw [write_of_shortLine hline, write_of_shortLine ((hagain _ (hr.alike ht)).trans hline)]

theorem shortens_text {o : Record} {key s : String} {v : Value} (hk : key ∈ shortKeys)
    (h : text? o key = some s) (hv : v.Says s) :
    List.Forall₂ Shortens [Statement.shorthand key v] (o.arranged [key]) := by
  rw [Record.arranged_of_some (text?_eq_some.1 h)]
  exact .cons ⟨v, rfl, hv, hk⟩ .nil

theorem shortens_description {o : Record} {key : String} {t : Option String} {v : Option Value}
    (hk : key ∈ shortKeys) (h : optionalText? o key = some t)
    (hv : Option.Rel (fun _ v => ∃ s ∈ t, v.Quotes s) (t.map quote) v) :
    List.Forall₂ Shortens (v.map (Statement.shorthand key)).toList (o.arranged [key]) := by
  rw [optionalText?_eq_some] at h
  cases t with
  | none =>
    cases hv
    rw [Record.arranged_of_none h]
    exact .nil
  | some s =>
    cases hv with
    | some hv =>
      obtain ⟨_, ⟨⟩, span, rfl⟩ := hv
      rw [Record.arranged_of_some h]
      exact .cons ⟨_, rfl, Value.spells_str s span, hk⟩ .nil

theorem shortens_kinds {o : Record} {key : String} {ss : List String} {v : Value} (hk : key ∈ shortKeys)
    (h : (o.get? key).bind strings? = some ss)
    (hv : (Statement.asArray v).Spells (.arr (ss.map .str))) :
    List.Forall₂ Shortens [Statement.shorthand key (Statement.asArray v)] (o.arranged [key]) := by
  obtain ⟨x, hx, hs⟩ := Option.bind_eq_some_iff.1 h
  obtain ⟨-, rfl⟩ := strings?_eq_some.1 hs
  rw [Record.arranged_of_some hx]
  exact .cons ⟨_, rfl, hv, hk⟩ .nil

theorem isValid_strings (ss : List String) : (Json.arr (ss.map .str)).isValid = true := by
  refine Json.every_arr.2 ⟨rfl, fun v hv => ?_⟩
  obtain ⟨s, -, rfl⟩ := List.mem_map.1 hv
  rfl

theorem word_kinds {ss : List String} (h : ss ≠ []) :
    Word (kindsWord ss) fun v => (Statement.asArray v).Spells (.arr (ss.map .str)) := by
  have hmany : Word (value (.arr (ss.map .str))) fun v =>
    (Statement.asArray v).Spells (.arr (ss.map .str)) := by
    refine (word_value (isValid_strings ss)).imp fun v hv => ?_
    obtain ⟨items, span, rfl, -⟩ := hv.array
    exact hv
  match ss with
  | [] => exact absurd rfl h
  | [s] =>
    refine (word_string s).imp fun v hv => ?_
    obtain ⟨span, rfl | rfl⟩ := hv.cases_str <;>
      exact ⟨rfl, rfl, fun w hw => by simp [Statement.asArray, Value.isWord, Value.name?] at hw⟩
  | _ :: _ :: _ => exact hmany

section
variable {c : Collection} (hc : c ∈ Collection.all) {o : Record} (hv : (Json.obj o).isValid = true)
include hc hv

theorem returns_tagLine (hb : c.block = "tag") {n : Node} (h : tagLine? o = some n) :
    n.Parses (Returned c o) := by
  have hshort : ∀ r, shortLine? c r = tagLine? r := fun r => by simp [shortLine?, hb]
  have hline := h
  obtain ⟨hall, tag, category, rarity, description, htag, hcategory, hrarity, hdescription, rfl⟩ :=
    tagLine?_eq_some.1 h
  have hr : Rewritten o (o.reread ["tag", "category", "rarity", "description"]) :=
    rewritten_reread hall (by decide) rfl
  have hlist : c.isList = true := (Collection.short_of_all c hc).1 hb
  refine (Node.parses_words (by decide) (by decide) (by decide)
    (.cons (word_string tag)
      (.cons (word_string category) (.cons (word_string rarity) (forall₂_optional word_quotes))))).imp
      ?_
  rintro s ⟨vs, hs, hvs⟩
  rcases hvs with _ | ⟨h1, _ | ⟨h2, _ | ⟨h3, hvs⟩⟩⟩
  rw [← hb] at hs
  refine ⟨_, outcomes_row hc hlist hs (by simp), rfl, ?_⟩
  have hleading : ∀ vs : List Value, Meets ((description.map quote).map fun _ v => ∃ s ∈ description,
    v.Quotes s).toList vs →
      leadingText vs = (description, []) := by
    intro vs hvs
    cases description with
    | none => cases hvs; rfl
    | some d =>
      rcases hvs with _ | ⟨⟨_, ⟨⟩, span, rfl⟩, _ | _⟩
      rfl
  have hrow : rowRecord c s.positional s.span =
    pure (o.reread ["tag", "category", "rarity", "description"]) := by
    rw [rowRecord, if_pos hb, hs.positional]
    simp only [tagRow, rowText_eq h1.text?, rowText_eq h2.text?, rowText_eq h3.text?,
      hleading _ hvs, pure_bind]
    rw [Record.reread_text htag, Record.reread_text hcategory, Record.reread_text hrarity,
      Record.reread_optionalText hdescription, Record.reread_nil, List.append_nil]
    rfl
  show Gives (rowRecord c s.positional s.span) _
  rw [hrow]
  refine gives_pure ⟨hr.recovers hv, fun ht => ?_⟩
  have hagain : shortLine? c (o.reread ["tag", "category", "rarity", "description"]) =
    shortLine? c o := by
    rw [hshort, hshort, tagLine?_of_alike (hr.alike ht)]
  rw [write_of_shortLine ((hshort o).trans hline),
    write_of_shortLine (hagain.trans ((hshort o).trans hline))]

theorem returns_axisLine (hb : c.block = "axis") {n : Node} (h : axisLine? o = some n) :
    n.Parses (Returned c o) := by
  have hshort : ∀ r, shortLine? c r = axisLine? r := fun r => by simp [shortLine?, hb]
  have hline := h
  obtain ⟨hall, id, name, low, high, description, hid, hname, hlow, hhigh, hdescription, rfl⟩ :=
    axisLine?_eq_some.1 h
  have hf : c.idField = some "id" := (Collection.short_of_all c hc).2.1 hb
  refine (Node.parses_axis (word_string id) word_quotes (word_string low) (word_string high)
    word_quotes).imp ?_
  rintro _ ⟨i, n, l, h, d, span, rfl, hi, hn, hl, hh, hd⟩
  rw [← hb]
  refine returned_of_shorthands hc hv hf hid hall (by decide) hi.text? ?_
    (fun o' ha => by rw [hshort, hshort, axisLine?_of_alike ha]) ((hshort o).trans hline) span
  have hkeys : o.arranged ["name", "lowTag", "highTag", "description"] = o.arranged ["name"] ++
      (o.arranged ["lowTag"] ++ o.arranged ["highTag"]) ++ o.arranged ["description"] := by
    simp only [Record.arranged, ← List.filterMap_append]
    rfl
  rw [hkeys]
  exact List.rel_append (List.rel_append (shortens_description (by decide) hname hn)
    (List.rel_append (shortens_text (by decide) hlow hl) (shortens_text (by decide) hhigh hh)))
    (shortens_description (by decide) hdescription hd)

theorem returns_relationshipKindLine (hb : c.block = "relationship_kind") {n : Node}
    (h : relationshipKindLine? o = some n) : n.Parses (Returned c o) := by
  have hshort : ∀ r, shortLine? c r = relationshipKindLine? r := fun r => by simp [shortLine?, hb]
  have hline := h
  obtain ⟨hall, kind, sources, targets, description, hkind, hsources, htargets, hdescription, rfl⟩ :=
    relationshipKindLine?_eq_some.1 h
  have hf : c.idField = some "kind" := (Collection.short_of_all c hc).2.2 hb
  have hne : ∀ {key ss}, (o.get? key).bind strings? = some ss → ss ≠ [] := by
    intro key ss h
    obtain ⟨x, -, hs⟩ := Option.bind_eq_some_iff.1 h
    exact (strings?_eq_some.1 hs).1
  refine (Node.parses_relationshipKind (word_string kind) (word_kinds (hne hsources))
    (word_kinds (hne htargets)) word_quotes).imp ?_
  rintro _ ⟨k, a, b, d, span, rfl, hk, ha, hb', hd⟩
  rw [← hb]
  refine returned_of_shorthands hc hv hf hkind hall (by decide) hk.text? ?_
    (fun o' ha => by rw [hshort, hshort, relationshipKindLine?_of_alike ha])
    ((hshort o).trans hline) span
  have hkeys : o.arranged ["srcKinds", "dstKinds", "description"] =
      (o.arranged ["srcKinds"] ++ o.arranged ["dstKinds"]) ++ o.arranged ["description"] := by
    simp only [Record.arranged, ← List.filterMap_append]
    rfl
  rw [hkeys]
  exact List.rel_append
    (List.rel_append (shortens_kinds (by decide) hsources ha) (shortens_kinds (by decide) htargets hb'))
    (shortens_description (by decide) hdescription hd)

theorem returns_relationshipLine (hb : c.block = "seed_relationship") {n : Node}
    (h : relationship? "seed_relationship" o [] = some n) : n.Parses (Returned c o) := by
  have hshort : ∀ r, shortLine? c r =
    relationship? "seed_relationship" r [] := fun r => by simp [shortLine?, hb]
  have hr := rewritten_relationship hv List.nodup_nil (by simp)
  rw [Record.reread_nil, List.nil_append] at hr
  refine (parses_relationship (by decide) hv h).imp ?_
  rintro _ ⟨⟨label, kind, source, target, vs, span, rfl⟩, hs⟩
  have hblock := (Collection.block_leads c hc).1
  rw [hb] at hblock
  refine ⟨⟨.rel, c, .rel "seed_relationship" label kind source target vs span⟩, ?_, rfl,
    (hs false).imp ?_⟩
  · simp [outcomes, Statement.isQuoted, containerOf?, ofStatement?, hblock]
  · rintro _ rfl
    refine ⟨hr.recovers hv, fun ht => ?_⟩
    have hagain := relationship?_restored ht List.nodup_nil (by simp) "seed_relationship"
    rw [Record.reread_nil, List.nil_append, ← hshort, h] at hagain
    rw [write_of_shortLine hagain, write_of_shortLine ((hshort o).trans h)]

theorem returns_shortLine {n : Node} (h : shortLine? c o = some n) : n.Parses (Returned c o) := by
  unfold shortLine? at h
  split at h
  · next hb => exact returns_tagLine hc hv hb h
  · next hb => exact returns_axisLine hc hv hb h
  · next hb => exact returns_relationshipKindLine hc hv hb h
  · next hb => exact returns_relationshipLine hc hv hb h
  · cases h

end

/-! ## Labels -/

/-- The labels of a record, without the name of its block, and the fields
that they write: no labels, the id, or the id and the name. -/
inductive Labelled (c : Collection) (o : Record) : List String → List String → Prop
  | none (hf : c.idField = none) : Labelled c o [] []
  | id {field id : String} (hf : c.idField = some field) (hid : text? o field = some id) :
      Labelled c o [string id] [field]
  | named {field id nameField name : String} (hf : c.idField = some field)
      (hid : text? o field = some id) (hn : c.nameField = some nameField)
      (hname : text? o nameField = some name) (hne : field ≠ nameField) :
      Labelled c o [string id, quote name] [field, nameField]

theorem labelled {c : Collection} (hc : c ∈ Collection.all) {o : Record}
    (hkept : c.identifies o = true) : ∃ ws skip, labels c o = (c.block :: ws, skip) ∧
    Labelled c o ws skip := by
  obtain ⟨hreq, -, hne, -⟩ := Collection.labels_of_all c hc
  rw [Collection.identifies, hreq] at hkept
  cases hf : c.idField with
  | none => exact ⟨[], [], by simp [labels, hf], .none hf⟩
  | some field =>
    simp only [hf] at hkept
    obtain ⟨id, hid⟩ := Option.isSome_iff_exists.1 hkept
    cases hn : c.nameField.bind fun field => (text? o field).map (Prod.mk field) with
    | none => exact ⟨_, _, by simp [labels, hf, hid, hn], .id hf hid⟩
    | some p =>
      obtain ⟨nameField, hnameField, hmap⟩ := Option.bind_eq_some_iff.1 hn
      obtain ⟨name, hname, rfl⟩ := Option.map_eq_some_iff.1 hmap
      refine ⟨_, _, by simp [labels, hf, hid, hn], .named hf hid hnameField hname ?_⟩
      rintro rfl
      exact hne _ hnameField hf

theorem labels_of_alike {o o' : Record} (h : Alike o o') (c : Collection) :
    labels c o' = labels c o := by
  simp only [labels, h.text?]

namespace Labelled

variable {c : Collection} {o : Record} {ws skip : List String} (h : Labelled c o ws skip)
include h

theorem nodup : skip.Nodup := by
  cases h with
  | none | id => simp
  | named _ _ _ _ hne => simpa using hne

theorem labelFields_of :
    ∃ Ps, List.Forall₂ Word ws Ps ∧ ∀ vs, Meets Ps vs → labelFields c 0 vs = pure (o.reread skip) := by
  cases h with
  | none =>
    refine ⟨[], .nil, fun vs hvs => ?_⟩
    cases hvs
    rfl
  | @id field id hf hid =>
    refine ⟨_, .cons (word_string id) .nil, fun vs hvs => ?_⟩
    rcases hvs with _ | ⟨hv, _ | _⟩
    rw [labelFields_one hf hv.text?, Record.reread_text hid, Record.reread_nil]
  | @named field id nameField name hf hid hn hname =>
    refine ⟨_, .cons (word_string id) (.cons (word_quote name) .nil), fun vs hvs => ?_⟩
    rcases hvs with _ | ⟨hv, _ | ⟨⟨span, rfl⟩, _ | _⟩⟩
    have hquoted : (Value.str name span).text? = some name := rfl
    rw [Record.reread_text hid, Record.reread_text hname, Record.reread_nil]
    simp [labelFields, Collection.labelFields, hf, hn, hv.text?, hquoted]

theorem mem_keys_of_idField {field : String} (hf : c.idField = some field) :
    field ∈ (o.reread skip).keys := by
  cases h with
  | none hf' =>
    rw [hf'] at hf
    cases hf
  | id hf' hid =>
    rw [hf'] at hf
    cases hf
    rw [Record.reread_text hid]
    exact List.mem_cons_self ..
  | named hf' hid =>
    rw [hf'] at hf
    cases hf
    rw [Record.reread_text hid]
    exact List.mem_cons_self ..

theorem keyedRow_of {field : String} (hf : c.idField = some field) (hn : c.nameField.isSome = true)
    (ps : Record) : ∃ Ps, List.Forall₂ Word ws Ps ∧ ∀ vs us, Meets Ps vs →
    Meets (pairValues ps) us → ∀ span,
      keyedRow c field (vs ++ us) span = pairFields us span (o.reread skip) := by
  obtain ⟨nameField, hname⟩ := Option.isSome_iff_exists.1 hn
  cases h with
  | none hf' =>
    rw [hf'] at hf
    cases hf
  | @id _ id hf' hid =>
    rw [hf'] at hf
    cases hf
    refine ⟨_, .cons (word_string id) .nil, fun vs us hvs hus span => ?_⟩
    rcases hvs with _ | ⟨hv, _ | _⟩
    have hleading : leadingText us = (Option.none, us) := by
      cases ps with
      | nil => cases hus; rfl
      | cons m ps =>
        rcases hus with _ | ⟨⟨_, rfl⟩, _⟩
        rfl
    rw [Record.reread_text hid, Record.reread_nil]
    simp [keyedRow, rowText_eq hv.text?, hname, hleading, optionalText]
  | @named _ id _ name hf' hid hn' hname' =>
    rw [hf'] at hf
    cases hf
    refine ⟨_, .cons (word_string id) (.cons (word_quote name) .nil), fun vs us hvs hus span => ?_⟩
    rcases hvs with _ | ⟨hv, _ | ⟨⟨span', rfl⟩, _ | _⟩⟩
    have hleading : leadingText (.str name span' :: us) = (some name, us) := by
      have hodd : (us.length + 1) % 2 = 1 := by
        rw [length_of_pairs hus]
        omega
      simp [leadingText, hodd]
    rw [Record.reread_text hid, Record.reread_text hname', Record.reread_nil]
    simp [keyedRow, rowText_eq hv.text?, hn', hleading, optionalText]

end Labelled

/-! ## Rows and blocks -/

theorem write_of_row {c : Collection} {o : Record} {n : Node} (hs : shortLine? c o = none)
    (h : row? c o = some n) : write c o = n := by
  rw [write, hs, h]
  rfl

theorem write_of_block {c : Collection} {o : Record} (hs : shortLine? c o = none)
    (h : row? c o = none) : write c o = block c o := by
  rw [write, hs, h]
  rfl

theorem row?_eq {c : Collection} {o : Record} {ws skip : List String}
    (h : labels c o = (c.block :: ws, skip)) : row? c o = if c.kind = .keyed ∧ c.block ≠ "tag" then
      (pairs? (o.without skip)).map fun pairs => .line (c.block :: (ws ++ pairs)) else none := by
  by_cases hk : c.kind = .keyed
  · by_cases hb : c.block = "tag"
    · simp [row?, hk, hb]
    · simp [row?, hk, hb, h, Record.without, Option.map_eq_bind]
  · simp [row?, hk]

theorem block_eq {c : Collection} {o : Record} {ws skip : List String}
    (h : labels c o = (c.block :: ws, skip)) :
    block c o = .block (c.block :: ws) (Json.body o skip) := by
  simp only [block, h, Json.body_forms]

theorem shortLine?_of_recovers {c : Collection} {o o' : Record} (hshort : shortLine? c o = none)
    (ht : (Json.obj o).isTame = true) (hr : Json.Recovers (.obj o) (.obj o')) :
    shortLine? c o' = none := by
  rw [← Option.not_isSome_iff_eq_none, isSome_shortLine? (alike_of_recovers ht hr), hshort]
  exact Bool.false_ne_true

section
variable {c : Collection} (hc : c ∈ Collection.all) {o : Record} (hv : (Json.obj o).isValid = true)
  {ws skip : List String} (hlabels : labels c o = (c.block :: ws, skip)) (hl : Labelled c o ws skip)
include hc hv hlabels hl

theorem parses_row {n : Node} (h : row? c o = some n) :
    n.Parses (CompiledTo c (· = o.reread skip ++ Json.rereadMembers (o.without skip))) := by
  rw [row?_eq hlabels, Option.ite_none_right_eq_some, Option.map_eq_some_iff] at h
  obtain ⟨⟨hk, hb⟩, pairs, hpairs, rfl⟩ := h
  obtain ⟨-, -, -, hkeyed⟩ := Collection.labels_of_all c hc
  obtain ⟨hlist, hid, hname⟩ := hkeyed hk
  obtain ⟨field, hf⟩ := Option.isSome_iff_exists.1 hid
  obtain ⟨-, hn, hs, hm, -⟩ := Collection.block_leads c hc
  have hvalid : ∀ m ∈ o.without skip, m.2.isValid = true :=
    fun m hm => Json.isValid_members hv m (List.mem_of_mem_filter hm)
  obtain ⟨Ps, hPs, hread⟩ := hl.keyedRow_of hf (hname.resolve_left hb) (o.without skip)
  refine (Node.parses_words hn hs hm (List.rel_append hPs (forall₂_pairs hvalid hpairs))).imp ?_
  rintro s ⟨vs, hline, hvs⟩
  obtain ⟨us, ts, hus, hts, rfl⟩ := forall₂_append_left hvs
  -- a row without values would be a bare word, but the id is always there
  have hne : us ++ ts ≠ [] := by
    intro he
    obtain ⟨rfl, rfl⟩ := List.append_eq_nil_iff.1 he
    cases hl with
    | none hf' =>
      rw [hf'] at hf
      cases hf
    | id | named =>
      cases hus
      cases hPs
  refine ⟨_, outcomes_row hc hlist hline hne, rfl, ?_⟩
  show Gives (rowRecord c s.positional s.span) _
  -- the labels give back the skipped fields, and the pairs the others
  have hrecord : rowRecord c s.positional s.span =
    pure (o.reread skip ++ Json.rereadMembers (o.without skip)) := by
    simp only [rowRecord, hb, if_false, hf, hline.positional]
    rw [hread us ts hus hts,
      pairFields_of hpairs hts _ _ (Record.nodup_front (Json.nodup_of_isValid hv) hl.nodup rfl)]
  rw [hrecord]
  exact gives_pure rfl

theorem parses_block : (block c o).Parses
    (CompiledTo c fun o' => ∃ r, FieldsReturned Json.field (o.without skip) r ∧
      o' = o.reread skip ++ r) := by
  obtain ⟨-, hn, hs, -, hm⟩ := Collection.block_leads c hc
  obtain ⟨Ps, hPs, hread⟩ := hl.labelFields_of
  have hnodup := Json.nodup_of_isValid hv
  have hfields : ∀ m ∈ o, FieldReturns m.1 m.2 := fun m hm =>
    (Json.restored (Json.isValid_members hv m hm)).field m.1
  rw [block_eq hlabels]
  refine (Node.parses_named_block hn hs hm hPs (body_returns_behind hnodup hfields)).imp ?_
  rintro _ ⟨labels', ss, span, rfl, hlabels', hss⟩
  refine ⟨_, outcomes_block hc _ _ _, rfl, ?_⟩
  show Gives (blockRecord c labels' ss span) _
  refine (gives_blockRecord (hread labels' hlabels') (hss [] (by simp) (by simp)) ?_ fun field hreq =>
    ?_).imp ?_
  · rintro _ ⟨r, rfl, hr⟩ key hk hfront
    rw [hr.keys] at hk
    rw [Record.keys_reread] at hfront
    exact (Record.mem_keys_without.1 hk).2 (List.mem_of_mem_filter hfront)
  · rw [(Collection.labels_of_all c hc).1] at hreq
    exact hl.mem_keys_of_idField hreq
  · rintro _ ⟨r, ⟨_, rfl, hr⟩, rfl⟩
    exact ⟨_, hr, rfl⟩

end

section
variable {c : Collection} (hc : c ∈ Collection.all) {o : Record} (hv : (Json.obj o).isValid = true)
  (hkept : c.identifies o = true) (hshort : shortLine? c o = none)
include hc hv hkept hshort

theorem returns_row {n : Node} (h : row? c o = some n) : n.Parses (Returned c o) := by
  obtain ⟨ws, skip, hlabels, hl⟩ := labelled hc hkept
  have hrec : Json.Recovers (.obj o) (.obj (o.reread skip ++ Json.rereadMembers (o.without skip))) :=
    recovers_pairs hv hl.nodup
  refine (parses_row hc hv hlabels hl h).imp fun s hs => hs.imp ?_
  rintro _ rfl
  refine ⟨hrec, fun ht => ?_⟩
  have ha := alike_of_recovers ht hrec
  rw [write_of_row hshort h]
  refine write_of_row (shortLine?_of_recovers hshort ht hrec) ?_
  rw [row?_eq hlabels] at h
  rw [row?_eq ((labels_of_alike ha c).trans hlabels), pairs?_front ht, h]

theorem returns_block (h : row? c o = none) : (block c o).Parses (Returned c o) := by
  obtain ⟨ws, skip, hlabels, hl⟩ := labelled hc hkept
  refine (parses_block hc hv hlabels hl).imp fun s hs => hs.imp ?_
  rintro _ ⟨r, hr, rfl⟩
  have hrec := recovers_body hv hl.nodup hr
  refine ⟨hrec, fun ht => ?_⟩
  have ha := alike_of_recovers ht hrec
  have hlabels'' := (labels_of_alike ha c).trans hlabels
  -- it does not become a row: whether all fields fit on a line is the same
  have hrow : row? c (o.reread skip ++ r) = none := by
    rw [row?_eq hlabels] at h
    rw [row?_eq hlabels'']
    split at h
    · next hk =>
      rw [Option.map_eq_none_iff] at h
      rw [if_pos hk, Option.map_eq_none_iff, ← Option.not_isSome_iff_eq_none, Record.without,
        (ha.filter fun key => !skip.contains key).isSome_pairs?, ← Record.without, h]
      exact Bool.false_ne_true
    · next hk => rw [if_neg hk]
  rw [write_of_block hshort h, write_of_block (shortLine?_of_recovers hshort ht hrec) hrow,
    block_eq hlabels, block_eq hlabels'', body_front ht hr]

end

/-- A record that is kept is read back, in whatever form it is written. -/
theorem write_returns {c : Collection} (hc : c ∈ Collection.all) {o : Record}
    (hv : (Json.obj o).isValid = true) (hkept : c.identifies o = true) :
    (write c o).Parses (Returned c o) := by
  cases hshort : shortLine? c o with
  | some n =>
    rw [write_of_shortLine hshort]
    exact returns_shortLine hc hv hshort
  | none =>
    cases hrow : row? c o with
    | some n =>
      rw [write_of_row hshort hrow]
      exact returns_row hc hv hkept hshort hrow
    | none =>
      rw [write_of_block hshort hrow]
      exact returns_block hc hv hkept hshort hrow

end Item

end Worldbook
