import Worldbook.Proofs.Fields

/-!
# Pairs of keys and values

Fields that fit on a line are written as `key value` pairs and read back one by one. Relationships
and rows end in such pairs, and a plain field may be made of them.
-/

namespace Worldbook

open Written

/-! ## Reading pairs -/

def pairValues : Record → List (Value → Prop)
  | [] => []
  | (key, x) :: rest => (·.Names key) :: (·.SpellsUnder key x) :: pairValues rest

namespace Value

theorem isKeyChar_of_isWordChar {c : Char} (h : isWordChar c = true) : isKeyChar c = true := by
  have hname := isNameChar_of_isWordChar h
  have hne : c ≠ '×' ∧ c ≠ '÷' := by
    constructor <;> rintro rfl <;> revert h <;> decide
  simp [isKeyChar, hname, hne.1, hne.2]

theorem Names.key? {v : Value} {key : String} (hv : v.Names key) (hk : isPlainKey key = true) :
    v.key? = some key := by
  obtain ⟨span, rfl⟩ := hv
  have hw : isPlainWord key.toList = true := (Bool.and_eq_true _ _ ▸ hk).1
  have hall : key.toList.all isKeyChar = true := by
    rw [List.all_eq_true]
    intro c hc
    cases hcs : key.toList with
    | nil => rw [hcs] at hc; cases hc
    | cons d ds =>
      rw [hcs] at hc hw
      rw [isPlainWord, Bool.and_eq_true, List.all_eq_true] at hw
      rcases List.mem_cons.1 hc with rfl | hc
      · refine isKeyChar_of_isWordChar ?_
        have := hw.1
        simp only [isWordStart, Bool.or_eq_true] at this
        simp only [isWordChar, Char.isAlphanum, Bool.or_eq_true]
        exact this.imp_left .inl
      · exact isKeyChar_of_isWordChar (hw.2 c hc)
  simp [Value.key?, name?, hall]

end Value

namespace Written

theorem pairs?_cons {key : String} {x : Json} {rest : Record} {ws : List String} :
    pairs? ((key, x) :: rest) = some ws ↔ isPlainKey key = true ∧ isInline x = true ∧
      ∃ more, pairs? rest = some more ∧ key :: fieldValue key x :: more = ws := by
  cases hk : isPlainKey key <;> cases hx : isInline x <;> simp [pairs?, hk, hx, Option.bind_eq_some_iff]

theorem forall₂_pairs {ps : Record} {ws : List String} (hv : ∀ m ∈ ps, m.2.isValid = true)
    (h : pairs? ps = some ws) : List.Forall₂ Word ws (pairValues ps) := by
  induction ps generalizing ws with
  | nil => cases h; exact .nil
  | cons m ps ih =>
    obtain ⟨key, x⟩ := m
    obtain ⟨hk, -, more, hmore, rfl⟩ := pairs?_cons.1 h
    exact .cons (word_plainKey hk) (.cons (word_fieldValue key (hv _ (List.mem_cons_self ..)))
      (ih (fun m hm => hv m (List.mem_cons_of_mem _ hm)) hmore))

end Written

variable {ps : Record} {ws : List String} {vs : List Value}

theorem length_of_pairs (h : Meets (pairValues ps) vs) : vs.length = 2 * ps.length := by
  induction ps generalizing vs with
  | nil => cases h; rfl
  | cons m ps ih =>
    obtain ⟨key, x⟩ := m
    rcases h with _ | ⟨_, _ | ⟨_, h⟩⟩
    simp only [List.length_cons, ih h]
    omega

namespace CompileM

/-- Pairs with new keys are appended to a record. -/
theorem setPairs_of (hp : pairs? ps = some ws) (h : Meets (pairValues ps) vs) (r : Record)
    (hn : (r ++ ps).keys.Nodup) : setPairs vs r = pure (r ++ Json.rereadMembers ps) := by
  induction ps generalizing vs ws r with
  | nil =>
    cases h
    simp only [setPairs, Json.rereadMembers, List.append_nil]
  | cons m ps ih =>
    obtain ⟨key, x⟩ := m
    rcases h with _ | ⟨hkey, _ | ⟨hx, h⟩⟩
    obtain ⟨hk, -, more, hmore, rfl⟩ := pairs?_cons.1 hp
    have hnew : key ∉ r.keys := by
      rw [Record.keys_append, Record.keys_cons] at hn
      exact fun hc => (List.disjoint_of_nodup_append hn) hc (List.mem_cons_self ..)
    have hmore' := ih hmore h (r ++ [(key, x.reread)]) (by simpa using hn)
    simp only [setPairs, hkey.key? hk, fieldValue_eq hx, setField_eq hnew, liftM_pure,
      pure_bind, hmore']
    rw [Json.rereadMembers, List.append_assoc]
    rfl

theorem pairFields_of (hp : pairs? ps = some ws) (h : Meets (pairValues ps) vs)
    (span : Span) (r : Record) (hn : (r ++ ps).keys.Nodup) :
    pairFields vs span r = pure (r ++ Json.rereadMembers ps) := by
  have hlen : ¬vs.length % 2 = 1 := by rw [length_of_pairs h]; omega
  rw [pairFields, if_neg hlen, setPairs_of hp h r hn]

end CompileM

namespace Value

theorem pairs?_of (hp : Written.pairs? ps = some ws) (h : Meets (pairValues ps) vs) :
    ∃ es, pairs? vs = some es ∧ literalMembers es = Json.rereadMembers ps := by
  induction ps generalizing vs ws with
  | nil => cases h; exact ⟨[], rfl, rfl⟩
  | cons m ps ih =>
    obtain ⟨key, x⟩ := m
    rcases h with _ | ⟨hkey, _ | ⟨hx, h⟩⟩
    obtain ⟨hk, -, more, hmore, rfl⟩ := pairs?_cons.1 hp
    obtain ⟨es, hes, hlit⟩ := ih hmore h
    refine ⟨(key, _) ::
      es, by simp only [pairs?, hkey.key? hk, hes, Option.bind_eq_bind, Option.bind_some]; rfl, ?_⟩
    rw [literalMembers, hx.literal, hlit, Json.rereadMembers]

theorem fieldLiteral_of {labels : List Value} {value : Value} (hp : Written.pairs? ps = some ws)
    (h : Meets (pairValues ps) (labels ++ [value])) (hn : ps.keys.Nodup) :
    fieldLiteral labels value = .obj (Json.rereadMembers ps) := by
  have hne : labels.isEmpty = false := by
    have := length_of_pairs h
    cases labels with
    | nil => simp at this; omega
    | cons _ _ => rfl
  obtain ⟨es, hes, hlit⟩ := pairs?_of hp h
  simp only [fieldLiteral, hne, Bool.false_eq_true, if_false, hes, hlit]
  rw [Record.ofPairs_of_nodup (by rw [Json.keys_rereadMembers]; exact hn)]

end Value

/-- The pairs of a tame record are written with the same words again. -/
theorem Written.pairs?_reread (ht : ∀ m ∈ ps, m.2.isTame = true) :
    pairs? (Json.rereadMembers ps) = pairs? ps := by
  induction ps with
  | nil => rfl
  | cons m ps ih =>
    obtain ⟨key, x⟩ := m
    have hx := ht _ (List.mem_cons_self ..)
    simp only [Json.rereadMembers, pairs?, fieldValue_reread key hx,
      Alike.isInline_of_recovers hx (Json.recovers_reread (Json.isValid_of_isTame hx)),
      ih fun m hm => ht m (List.mem_cons_of_mem _ hm)]

/-! ## Relationships -/

namespace Record

theorem reread_keys {o ps : Record} (h : ∀ m ∈ ps, o.get? m.1 = some m.2) :
    o.reread ps.keys = Json.rereadMembers ps := by
  induction ps with
  | nil => rfl
  | cons m ps ih =>
    obtain ⟨key, x⟩ := m
    rw [keys_cons, reread_of_some (h _ (List.mem_cons_self ..)), ih fun m hm =>
      h m (List.mem_cons_of_mem _ hm), Json.rereadMembers]

theorem reread_keys_filter {o : Record} (hn : o.keys.Nodup) (p : String × Json → Bool) :
    o.reread (keys (o.filter p)) = Json.rereadMembers (o.filter p) :=
  reread_keys fun _ hm => get?_of_mem hn (List.mem_of_mem_filter hm)

theorem mem_keys_filter {o : Record} {p : String → Bool} {key : String} :
    key ∈ keys (o.filter fun m => p m.1) ↔ key ∈ o.keys ∧ p key = true := by
  simp only [keys, List.mem_map, List.mem_filter]
  constructor
  · rintro ⟨m, ⟨hm, hp⟩, rfl⟩
    exact ⟨⟨m, hm, rfl⟩, hp⟩
  · rintro ⟨⟨m, hm, rfl⟩, hp⟩
    exact ⟨m, ⟨hm, hp⟩, rfl⟩

end Record

def strengthKey (o : Record) : List String := ((number? o "strength").map fun _ => "strength").toList

def endKeys (o : Record) : List String := ["kind", "src", "dst"] ++ strengthKey o ++ ["as"]

def isPairKey (o : Record) (skip : List String) (key : String) : Bool :=
  !(["kind", "src", "dst", "as"] ++ skip ++ strengthKey o).contains key

def pairFieldsOf (o : Record) (skip : List String) : Record := o.filter fun m => isPairKey o skip m.1

def restoredRelationship (o : Record) (skip : List String) : Record :=
  o.reread (endKeys o) ++ Json.rereadMembers (pairFieldsOf o skip)

theorem isPairKey_iff {o : Record} {skip : List String} {key : String} :
    isPairKey o skip key = true ↔ key ∉ endKeys o ∧ key ∉ skip := by
  simp only [isPairKey, endKeys, strengthKey, List.contains_eq_mem, List.mem_append, List.mem_cons,
    List.not_mem_nil, Bool.not_eq_true', decide_eq_false_iff_not]
  tauto

theorem mem_pairFieldsOf {o : Record} {skip : List String} {key : String} :
    key ∈ (pairFieldsOf o skip).keys ↔ key ∈ o.keys ∧ key ∉ endKeys o ∧ key ∉ skip := by
  rw [← isPairKey_iff]
  exact Record.mem_keys_filter

theorem nodup_endKeys (o : Record) : (endKeys o).Nodup := by
  rw [endKeys, strengthKey]
  cases number? o "strength" <;> simp

theorem relationship?_eq_some {word : String} {o : Record} {skip : List String} {n : Node}
    (h : relationship? word o skip = some n) :
    ∃ bound kind source target pairs, optionalText? o "as" = some bound ∧
      (∀ a ∈ bound, isBinding a.toList = true) ∧ text? o "kind" = some kind ∧
      text? o "src" = some source ∧
      text? o "dst" = some target ∧ pairs? (pairFieldsOf o skip) = some pairs ∧
      n = .line (word :: (bound.toList ++ [string kind, reference source]) ++
        "->" :: reference target :: ((number? o "strength").toList ++ pairs)) := by
  simp only [relationship?, Option.bind_eq_bind, Option.bind_eq_some_iff, Option.pure_def,
    Option.some.injEq] at h
  obtain ⟨words, hwords, kind, hkind, source, hsource, target, htarget, pairs, hpairs, rfl⟩ := h
  obtain ⟨bound, hbound, halias, rfl⟩ := aliasWord?_eq_some.1 hwords
  exact ⟨bound, kind, source, target, pairs, hbound, halias, hkind, hsource, htarget, hpairs, by simp⟩

def strengthValues (o : Record) : List (Value → Prop) :=
  match o.get? "strength" with
  | some (.num n) => [(·.Spells (.num n))]
  | _ => []

theorem forall₂_strength {o : Record} (hv : (Json.obj o).isValid = true) :
    List.Forall₂ Word (number? o "strength").toList (strengthValues o) := by
  rw [number?, strengthValues]
  cases h : o.get? "strength" with
  | none => exact .nil
  | some x =>
    cases x with
    | num n => exact .cons (word_number (isHeld_of_get? hv h)) .nil
    | _ => exact .nil

theorem strengthFirst_of {o ps : Record} {vs : List Value}
    (h : Meets (strengthValues o ++ pairValues ps) vs) :
    ∃ us, strengthFirst vs = (o.reread (strengthKey o), us) ∧ Meets (pairValues ps) us := by
  have hnone : (∀ n, o.get? "strength" ≠ some (.num n)) → strengthValues o = [] ∧
    strengthKey o = [] := by
    intro hn
    rw [strengthValues, strengthKey, number?]
    cases hx : o.get? "strength" with
    | none => exact ⟨rfl, rfl⟩
    | some x =>
      cases x with
      | num n => exact absurd hx (hn n)
      | _ => exact ⟨rfl, rfl⟩
  by_cases hs : ∃ n, o.get? "strength" = some (.num n)
  · obtain ⟨n, hn⟩ := hs
    rw [strengthValues, hn] at h
    rcases h with _ | ⟨hx, h⟩
    obtain ⟨span, rfl⟩ := hx.num
    refine ⟨_, ?_, h⟩
    rw [strengthFirst, Json.ofNumber_of_isFinite hx.isFinite, strengthKey, number?, hn]
    simp only [Option.bind_some, Json.number?, Option.map_some, Option.toList_some,
      Record.reread_of_some hn, Record.reread_nil, Json.reread]
  · obtain ⟨hvalues, hkey⟩ := hnone (not_exists.1 hs)
    rw [hvalues, List.nil_append] at h
    refine ⟨vs, ?_, h⟩
    rw [hkey, Record.reread_nil]
    cases ps with
    | nil => cases h; rfl
    | cons m ps =>
      rcases h with _ | ⟨⟨span, rfl⟩, _⟩
      rfl

namespace CompileM

theorem rowText_eq {field text : String} {v : Value} (h : v.text? = some text) :
    rowText field v = pure text := by
  simp only [rowText, h]

theorem gives_labelAlias {bound : Option String} {label : Option Value}
    (h : Option.Rel (fun a v => v.Names a) bound label) (ha : ∀ a ∈ bound, isBinding a.toList = true) :
    Gives (labelAlias label) (· = optionalText "as" bound) := by
  cases h with
  | none => exact gives_pure rfl
  | @some a v hv =>
    simp only [labelAlias, rowText_eq hv.text?, pure_bind]
    exact gives_lift (yields_aliasField fun _ hs => hasSigil_of_isBinding (ha _ hs))

theorem relationshipEnds_eq (required : Bool) {source target : Value} {a b : String}
    (hs : source.Cites a) (ht : target.Cites b) :
    relationshipEnds required source target = pure (.str a, .str b) := by
  cases required with
  | true => simp only [relationshipEnds, requiredReference_eq hs, requiredReference_eq ht]; rfl
  | false => simp only [relationshipEnds, reference_eq hs, reference_eq ht]; rfl

end CompileM

theorem nodup_restored {o : Record} {skip : List String} (hv : (Json.obj o).isValid = true) :
    (o.reread (endKeys o) ++ pairFieldsOf o skip).keys.Nodup := by
  rw [Record.keys_append]
  refine List.Nodup.append (Record.nodup_reread (nodup_endKeys o))
    (Record.nodup_filter (Json.nodup_of_isValid hv) _) fun key hk hp => ?_
  rw [Record.keys_reread] at hk
  exact (mem_pairFieldsOf.1 hp).2.1 (List.mem_of_mem_filter hk)

open CompileM in
theorem parses_relationship {word : String} (hword : word ∈ relWords) {o : Record}
    {skip : List String} {n : Node} (hv : (Json.obj o).isValid = true)
    (h : relationship? word o skip = some n) :
    n.Parses fun s =>
    (∃ label kind source target vs span, s = .rel word label kind source target vs span) ∧
      ∀ required, Gives (s.relationship required) (· = restoredRelationship o skip) := by
  obtain ⟨bound, kind, source, target, pairs, hbound, halias, hkind, hsource, htarget, hpairs, rfl⟩ :=
    relationship?_eq_some h
  have hvalid : ∀ m ∈ pairFieldsOf o skip, m.2.isValid = true :=
    fun m hm => Json.isValid_members hv m (List.mem_of_mem_filter hm)
  have hname : ∀ w ∈ relWords, isName w.toList = true ∧ w ∉ specialWords := by decide
  have hlabel : ∀ a ∈ bound, Word a fun v => ∃ b ∈ bound, v.Names b :=
    fun a ha => (word_binding (halias a ha)).imp fun v hv => ⟨a, ha, hv⟩
  refine (Node.parses_rel (hname word hword).1 (hname word hword).2 hword hlabel (word_string kind)
    (word_reference source) (word_reference target)
    (List.rel_append (forall₂_strength hv) (forall₂_pairs hvalid hpairs))).imp ?_
  rintro _ ⟨label, k, a, b, vs, span, rfl, hl, hk, ha, hb, hvs⟩
  refine ⟨⟨label, k, a, b, vs, span, rfl⟩, fun required => ?_⟩
  have hl' : Option.Rel (fun a v => v.Names a) bound label := by
    cases hl with
    | none => exact .none
    | some hn => obtain ⟨_, ⟨⟩, hn⟩ := hn; exact .some hn
  obtain ⟨us, hstrength, hus⟩ := strengthFirst_of hvs
  simp only [Statement.relationship, rowText_eq hk.text?, relationshipEnds_eq required ha hb,
    hstrength, pure_bind]
  refine (gives_labelAlias hl' halias).bind ?_
  rintro _ rfl
  have hends : [("kind", Json.str kind), ("src", .str source), ("dst", .str target)] ++
    o.reread (strengthKey o) ++
      optionalText "as" bound = o.reread (endKeys o) := by
    rw [endKeys, List.append_assoc, Record.reread_append, Record.reread_append,
      Record.reread_text hkind, Record.reread_text hsource, Record.reread_text htarget,
      Record.reread_optionalText hbound, Record.reread_nil,
      List.append_nil, List.append_assoc]
    rfl
  rw [hends, pairFields_of hpairs hus span _ (nodup_restored hv)]
  exact gives_pure rfl

/-- The record of a relationship line, behind the fields that are written elsewhere. -/
theorem rewritten_relationship {o : Record} (hv : (Json.obj o).isValid = true) {skip : List String}
    (hs : skip.Nodup) (hd : ∀ key ∈ skip, key ∉ endKeys o) :
    Rewritten o (o.reread skip ++ restoredRelationship o skip) := by
  have hn := Json.nodup_of_isValid hv
  have hkeys : o.reread skip ++ restoredRelationship o skip =
      o.reread (skip ++ (endKeys o ++ (pairFieldsOf o skip).keys)) := by
    rw [Record.reread_append, Record.reread_append, restoredRelationship, pairFieldsOf,
      Record.reread_keys_filter hn]
  refine rewritten_reread (Record.hasOnly_iff.2 fun key hk => ?_) ?_ hkeys
  · rw [List.mem_append, List.mem_append, mem_pairFieldsOf]
    by_cases h1 : key ∈ skip
    · exact .inl h1
    · by_cases h2 : key ∈ endKeys o
      · exact .inr (.inl h2)
      · exact .inr (.inr ⟨hk, h2, h1⟩)
  · refine List.Nodup.append hs (List.Nodup.append (nodup_endKeys o) (Record.nodup_filter hn _) ?_) ?_
    · exact fun key hk hp => (mem_pairFieldsOf.1 hp).2.1 hk
    · intro key hk hp
      rcases List.mem_append.1 hp with hp | hp
      · exact hd key hk hp
      · exact (mem_pairFieldsOf.1 hp).2.2 hk

theorem relationship?_eq (word : String) (o : Record) (skip : List String) : relationship? word o skip =
    (aliasWord? o).bind fun bound => (text? o "kind").bind fun kind =>
    (text? o "src").bind fun source =>
      (text? o "dst").bind fun target => (pairs? (pairFieldsOf o skip)).bind fun pairs =>
        some (.line (word :: bound ++ [string kind, reference source, "->", reference target] ++
          (number? o "strength").toList ++ pairs)) := rfl

theorem filter_rereadMembers (p : String → Bool) (o : Record) :
    List.filter (fun m => p m.1) (Json.rereadMembers o) =
      Json.rereadMembers (o.filter fun m => p m.1) := by
  induction o with
  | nil => rfl
  | cons m o ih =>
    obtain ⟨key, x⟩ := m
    rw [Json.rereadMembers, List.filter_cons, List.filter_cons, ih]
    cases p key <;> rfl

theorem relationship?_restored {o : Record} (ht : (Json.obj o).isTame = true) {skip : List String}
    (hs : skip.Nodup) (hd : ∀ key ∈ skip, key ∉ endKeys o) (word : String) :
    relationship? word (o.reread skip ++ restoredRelationship o skip) skip =
      relationship? word o skip := by
  have hr := rewritten_relationship (Json.isValid_of_isTame ht) hs hd
  have ha := hr.alike ht
  have hnum := hr.number? ht "strength" (by decide)
  have hkey : strengthKey (o.reread skip ++ restoredRelationship o skip) = strengthKey o := by
    rw [strengthKey, hnum, strengthKey]
  -- neither the ends nor the skipped fields are taken for pairs
  have hpairs : pairFieldsOf (o.reread skip ++ restoredRelationship o skip) skip =
      Json.rereadMembers (pairFieldsOf o skip) := by
    have hdrop : ∀ r : Record, (∀ key ∈ r.keys, isPairKey o skip key = false) →
        r.filter (fun m => isPairKey o skip m.1) = [] :=
      fun r hk => List.filter_eq_nil_iff.2
      fun m hm => by rw [hk m.1 (List.mem_map_of_mem hm)]; exact nofun
    have hkept : (Json.rereadMembers (pairFieldsOf o skip)).filter (fun m => isPairKey o skip m.1) =
        Json.rereadMembers (pairFieldsOf o skip) := by
      rw [filter_rereadMembers, pairFieldsOf, List.filter_filter]
      simp only [Bool.and_self]
    have hno : ∀ key, key ∈ endKeys o ∨ key ∈ skip → isPairKey o skip key = false := by
      intro key hk
      rw [← Bool.not_eq_true, isPairKey_iff]
      exact fun hc => hk.elim hc.1 hc.2
    have hfilter : pairFieldsOf (o.reread skip ++ restoredRelationship o skip) skip =
        (o.reread skip ++ restoredRelationship o skip).filter (fun m => isPairKey o skip m.1) := by
      simp only [pairFieldsOf, isPairKey, hkey]
    rw [hfilter, restoredRelationship, List.filter_append, List.filter_append, hkept,
      hdrop _ fun key hk => hno key (.inr ?_), hdrop _ fun key hk => hno key (.inl ?_)]
    · rfl
    · rw [Record.keys_reread] at hk
      exact List.mem_of_mem_filter hk
    · rw [Record.keys_reread] at hk
      exact List.mem_of_mem_filter hk
  have htame : ∀ m ∈ pairFieldsOf o skip, m.2.isTame = true :=
    fun m hm => (Json.every_obj.1 ht).2 m (List.mem_of_mem_filter hm)
  rw [relationship?_eq, relationship?_eq, ha.aliasWord?, ha.text?, ha.text?, ha.text?, hnum, hpairs,
    pairs?_reread htame]

theorem Alike.isSome_relationship? {o o' : Record} (h : Alike o o') (word : String)
    (skip : List String) :
    (relationship? word o' skip).isSome = (relationship? word o skip).isSome := by
  have hkey : strengthKey o' = strengthKey o := by
    have := h.isSome_number? "strength"
    rw [strengthKey, strengthKey]
    cases hx : number? o' "strength" <;> cases hy : number? o "strength" <;> simp_all
  have hpairs : (pairs? (pairFieldsOf o' skip)).isSome = (pairs? (pairFieldsOf o skip)).isSome := by
    have hsame : pairFieldsOf o' skip = o'.filter fun m => isPairKey o skip m.1 := by
      simp only [pairFieldsOf, isPairKey, hkey]
    rw [hsame]
    exact (h.filter (isPairKey o skip)).isSome_pairs?
  simp [relationship?_eq, h.aliasWord?, h.text?, Option.isSome_bind, any_const, hpairs]

end Worldbook
