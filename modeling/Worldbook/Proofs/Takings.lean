import Worldbook.Proofs.Pieces

/-!
# What a statement takes

Each shape of a line takes its word and its values from the pieces of the line, and nothing else
but the items of an array that is the last piece. The short forms make fields of single pieces.
-/

namespace Worldbook

/-! ## Values of pieces -/

namespace Piece

variable {ps : List Piece}

theorem eq_map_of_valuesOr {cause : String → SyntaxError.Cause} {vs : List Value}
    (h : valuesOr cause ps = .ok vs) : ps = vs.map value := by
  induction ps generalizing vs with
  | nil =>
    cases h
    rfl
  | cons p ps ih =>
    cases p with
    | value v =>
      obtain ⟨ws, hws, heq⟩ := Cursor.bind_eq_ok h
      cases heq
      rw [List.map_cons, ← ih hws]
    | op operator s => cases h

theorem mem_of_splitAtArrow {seen : Bool} {before after : List Value}
    (h : splitAtArrow seen ps = .ok (before, after)) : ∀ v ∈ before ++ after, value v ∈ ps := by
  induction ps generalizing seen before after with
  | nil =>
    cases h
    simp
  | cons p ps ih =>
    cases p with
    | value v =>
      obtain ⟨⟨front, back⟩, hrest, heq⟩ := Cursor.bind_eq_ok h
      have hmem := ih hrest
      intro w hw
      have hcases : w = v ∨ w ∈ front ++ back := by
        cases seen with
        | false =>
          cases heq
          simpa using hw
        | true =>
          cases heq
          simpa [or_left_comm] using hw
      obtain rfl | hw := hcases
      · exact List.mem_cons_self
      · exact List.mem_cons_of_mem _ (hmem w hw)
    | op operator s =>
      cases operator with
      | arrow =>
        cases seen with
        | true => cases h
        | false =>
          intro w hw
          exact List.mem_cons_of_mem _ (ih h w hw)
      | _ => cases h

end Piece

/-! ## Shapes of lines -/

namespace Statement

variable {line : Span} {ps args : List Piece} {s : Statement}

def showsQuotes : Statement → Bool
  | predicate .. | within .. => false
  | _ => true

/-- The first word of a change, which is no value. -/
def target? : Statement → Option String
  | mutate target .. => some target
  | _ => none

/-- The statement stands for one value of a short form, as it is or in an array of its own. -/
def IsShorthand (ps : List Piece) (t : Statement) : Prop :=
  ∃ key v u, t = shorthand key v ∧ key ∉ blockWords ∧ Piece.value u ∈ ps ∧
    (v = u ∨ v = .array [u] u.span)

/-- The word and the values of the statement are pieces of its line. Only the
items of a list may come from between the brackets of its last piece. -/
structure Takes (line : Span) (ps : List Piece) (s : Statement) : Prop where
  span : s.span = line
  keyword : ∀ k, s.keyword? = some k → (∃ q, ps.head? = some (.value (.name k q))) ∨
    (∃ q, ps.head? = some (.value (.str k q))) ∧ (s.isQuoted = true ∨ s.showsQuotes = false)
  target : ∀ w, s.target? = some w → ∃ q, .value (.name w q) ∈ ps
  values : ∀ v ∈ s.values, .value v ∈ ps ∨
    ∃ key items q, s = .within key items line ∧ v ∈ items ∧ ps.getLast? = some (.value (.array items q))

theorem ofItems_ok {key : Option String} {items : List Value} {keySpan : Span}
    (h : ofItems key items keySpan line = .ok s) : ∃ vs, s = .within key vs line ∧
    (vs = items ∨ ∃ q, items = [.array vs q]) := by
  unfold ofItems at h
  split at h
  · cases h
  · cases h
    exact ⟨_, rfl, .inr ⟨_, rfl⟩⟩
  · cases h
    exact ⟨_, rfl, .inl rfl⟩

theorem ofMutate_ok (h : ofMutate args line = .ok s) :
    ∃ target q id change n, s = .mutate target id change n line ∧
    .value (.name target q) ∈ args ∧ .value id ∈ args := by
  rcases args with _ | ⟨target | ⟨operator, q⟩, args⟩
  · cases h
  · cases target with
    | name target q =>
      rcases args with _ | ⟨id | ⟨operator, t⟩, args⟩
      · cases h
      · rcases args with _ | ⟨v | ⟨operator, t⟩, args⟩
        · cases h
        · cases h
        · cases operator with
          | change change =>
            simp only [ofMutate, ok_bind] at h
            obtain ⟨amount, -, h⟩ := Cursor.bind_eq_ok h
            split at h
            · cases h
              exact ⟨target, q, id, change, amount, rfl, by simp, by simp⟩
            · cases h
          | _ => cases h
      · cases h
    | _ => cases h
  · cases h

theorem ofOrigin_ok (h : ofOrigin args line = .ok s) :
    ∃ source via, s = .origin source via line ∧ ∀ v ∈ s.values, .value v ∈ args := by
  obtain ⟨vs, hvs, h⟩ := Cursor.bind_eq_ok h
  rw [Piece.eq_map_of_valuesOr hvs]
  rcases vs with _ | ⟨source, _ | ⟨via, rest⟩⟩
  · cases h
  · cases h
    exact ⟨source, none, rfl, by simp [values]⟩
  · dsimp only at h
    split at h
    · rcases rest with _ | ⟨kind, _ | ⟨direction, _ | ⟨extra, rest⟩⟩⟩
      · cases h
      · cases h
      · cases h
        exact ⟨source, some (kind, direction), rfl, by simp [values]⟩
      · cases h
    · cases h

theorem ofRel_ok {key : String} (h : ofRel key args line = .ok s) : ∃ label kind source target values,
    s = .rel key label kind source target values line ∧ ∀ v ∈ s.values, .value v ∈ args := by
  have hparts : (args.span fun p => !p.isArrow).1 ++ (args.span fun p => !p.isArrow).2 = args := by
    rw [List.span_eq_takeWhile_dropWhile, List.takeWhile_append_dropWhile]
  unfold ofRel at h
  generalize args.span (fun p => !p.isArrow) = parts at h hparts
  obtain ⟨before, fromArrow⟩ := parts
  dsimp only at h hparts
  subst hparts
  obtain ⟨front, hfront, h⟩ := Cursor.bind_eq_ok h
  -- the values in front of the arrow and those behind it are pieces of the line
  have hrel : ∀ (label : Option Value) (kind source target : Value) (vs : List Value),
      front = label.toList ++ [kind, source] → Piece.values (fromArrow.drop 1) = .ok (target :: vs) →
      ∀ v ∈ (rel key label kind source target vs line).values, .value v ∈ before ++ fromArrow := by
    intro label kind source target vs hlabel hback v hv
    have hv : v ∈ front ∨ v ∈ target :: vs := by simpa [values, hlabel, or_assoc] using hv
    obtain hv | hv := hv
    · refine List.mem_append_left _ ?_
      rw [Piece.eq_map_of_valuesOr hfront]
      exact List.mem_map_of_mem hv
    · refine List.mem_append_right _ (List.mem_of_mem_drop (i := 1) ?_)
      rw [Piece.eq_map_of_valuesOr hback]
      exact List.mem_map_of_mem hv
  rcases front with _ | ⟨a, _ | ⟨b, _ | ⟨c, _ | ⟨d, rest⟩⟩⟩⟩
  · cases h
  · cases h
  · simp only [ok_bind] at h
    obtain ⟨back, hback, h⟩ := Cursor.bind_eq_ok h
    cases back with
    | nil => cases h
    | cons target vs =>
      cases h
      exact ⟨none, a, b, target, vs, rfl, hrel none a b target vs rfl hback⟩
  · simp only [ok_bind] at h
    obtain ⟨back, hback, h⟩ := Cursor.bind_eq_ok h
    cases back with
    | nil => cases h
    | cons target vs =>
      cases h
      exact ⟨some a, b, c, target, vs, rfl, hrel (some a) b c target vs rfl hback⟩
  · cases h

theorem ofPredicate_ok {word : String} {vs : List Value} (h : ofPredicate word line vs ps = .ok s) :
    ∃ more comparator number upper, s = .predicate word (vs ++ more) comparator number upper line ∧
      ∀ v ∈ more, .value v ∈ ps := by
  induction ps generalizing vs with
  | nil => cases h
  | cons p ps ih =>
    cases p with
    | value v =>
      obtain ⟨more, comparator, number, upper, hs, hmore⟩ := ih h
      refine ⟨v :: more, comparator, number, upper, by rw [hs, List.append_assoc]; rfl, ?_⟩
      rw [List.forall_mem_cons]
      exact ⟨List.mem_cons_self, fun w hw => List.mem_cons_of_mem _ (hmore w hw)⟩
    | op operator q =>
      cases operator with
      | compare comparator =>
        obtain ⟨number, -, h⟩ := Cursor.bind_eq_ok h
        split at h
        · cases h
          exact ⟨[], comparator, number, none, by rw [List.append_nil], by simp⟩
        · obtain ⟨upper, -, h⟩ := Cursor.bind_eq_ok h
          split at h
          · cases h
            exact ⟨[], comparator, number, some upper, by rw [List.append_nil], by simp⟩
          · cases h
        · cases h
      | _ => cases h

theorem isShorthand_self {key : String} (hkey : key ∉ blockWords) {v : Value} (hv : .value v ∈ ps) :
    (shorthand key v).IsShorthand ps := ⟨key, v, v, rfl, hkey, hv, .inl rfl⟩

theorem isShorthand_asArray {key : String} (hkey : key ∉ blockWords) {v : Value} (hv : .value v ∈ ps) :
    (shorthand key (asArray v)).IsShorthand ps := by
  refine ⟨key, asArray v, v, rfl, hkey, hv, ?_⟩
  cases v with
  | array items q => exact .inl rfl
  | _ => exact .inr rfl

theorem ofAxisLine_ok (h : ofAxisLine args line = .ok s) : ∃ id body, s = .block "axis" false
    [id] body line ∧
    .value id ∈ args ∧ ∀ t ∈ body, t.IsShorthand args := by
  obtain ⟨⟨before, after⟩, hsplit, h⟩ := Cursor.bind_eq_ok h
  have hmem := Piece.mem_of_splitAtArrow hsplit
  have hblock : ∀ (id : Value) (fields : List (String × Value)), before ++ after = id ::
    fields.map (·.2) →
      (∀ f ∈ fields, f.1 ∉ blockWords) →
      .block "axis" false [id] (fields.map fun f => shorthand f.1 f.2) line = s →
      ∃ id body, s = .block "axis" false [id] body line ∧ .value id ∈ args ∧
      ∀ t ∈ body, t.IsShorthand args := by
    intro id fields hfields hkeys hs
    rw [hfields, List.forall_mem_cons] at hmem
    refine ⟨id, _, hs.symm, hmem.1, ?_⟩
    intro t ht
    obtain ⟨f, hf, rfl⟩ := List.mem_map.1 ht
    exact isShorthand_self (hkeys f hf) (hmem.2 f.2 (List.mem_map_of_mem hf))
  rcases before with _ | ⟨id, _ | ⟨b, _ | ⟨c, _ | ⟨d, rest⟩⟩⟩⟩
  · cases h
  · cases h
  · rcases after with _ | ⟨high, _ | ⟨description, _ | ⟨d, rest⟩⟩⟩
    · cases h
    · exact hblock id [("lowTag", b), ("highTag", high)] rfl (by simp [blockWords]) (Except.ok.inj h)
    · exact hblock id [("lowTag", b), ("highTag", high), ("description", description)] rfl
        (by simp [blockWords]) (Except.ok.inj h)
    · cases h
  · rcases after with _ | ⟨high, _ | ⟨description, _ | ⟨d, rest⟩⟩⟩
    · cases h
    · exact hblock id [("name", b), ("lowTag", c), ("highTag", high)] rfl (by simp [blockWords])
        (Except.ok.inj h)
    · exact hblock id [("name", b), ("lowTag", c), ("highTag", high), ("description", description)] rfl
        (by simp [blockWords]) (Except.ok.inj h)
    · cases h
  · cases h

theorem ofRelationshipKindLine_ok (h : ofRelationshipKindLine args line = .ok s) : ∃ kind body,
    s = .block "relationship_kind" false [kind] body line ∧ .value kind ∈ args ∧
      ∀ t ∈ body, t.IsShorthand args := by
  obtain ⟨⟨before, after⟩, hsplit, h⟩ := Cursor.bind_eq_ok h
  have hmem := Piece.mem_of_splitAtArrow hsplit
  rcases before with _ | ⟨kind, _ | ⟨source, _ | ⟨c, rest⟩⟩⟩
  · cases h
  · cases h
  · rcases after with _ | ⟨target, _ | ⟨description, _ | ⟨c, rest⟩⟩⟩
    · cases h
    · cases h
      refine ⟨kind, _, rfl, hmem kind (by simp), ?_⟩
      rw [List.forall_mem_cons, List.forall_mem_singleton]
      exact ⟨isShorthand_asArray (by decide) (hmem source (by simp)),
        isShorthand_asArray (by decide) (hmem target (by simp))⟩
    · cases h
      refine ⟨kind, _, rfl, hmem kind (by simp), ?_⟩
      rw [List.forall_mem_cons, List.forall_mem_cons, List.forall_mem_singleton]
      exact ⟨isShorthand_asArray (by decide) (hmem source (by simp)),
        isShorthand_asArray (by decide) (hmem target (by simp)),
        isShorthand_self (by decide) (hmem description (by simp))⟩
    · cases h
  · cases h

theorem IsShorthand.cons {t : Statement} (h : t.IsShorthand args) (p : Piece) :
    t.IsShorthand (p :: args) := by
  obtain ⟨key, v, u, ht, hkey, hu, hv⟩ := h
  exact ⟨key, v, u, ht, hkey, List.mem_cons_of_mem p hu, hv⟩

inductive Leads (key : String) : Bool → Value → Prop
  | name (q : Span) : Leads key false (.name key q)
  | str (q : Span) : Leads key true (.str key q)

theorem Leads.head {key : String} {quoted : Bool} {v : Value} (h : Leads key quoted v)
    (args : List Piece) : (∃ q, (Piece.value v :: args).head? = some (.value (.name key q))) ∨
      (∃ q, (Piece.value v :: args).head? = some (.value (.str key q))) ∧ quoted = true := by
  cases h with
  | name q => exact .inl ⟨q, rfl⟩
  | str q => exact .inr ⟨⟨q, rfl⟩, rfl⟩

theorem takes_of_leads {key : String} {quoted : Bool} {v : Value} (hlead : Leads key quoted v)
    (hspan : s.span = line) (hkeyword : s.keyword? = some key)
    (hquotes : quoted = true → s.isQuoted = true ∨ s.showsQuotes = false)
    (htarget : ∀ w, s.target? = some w → ∃ q, .value (.name w q) ∈ args)
    (hvalues : ∀ u ∈ s.values, .value u ∈ args) : s.Takes line (.value v :: args) := by
  refine ⟨hspan, ?_, ?_, ?_⟩
  · intro k hk
    obtain rfl : key = k := by simpa [hkeyword] using hk
    exact (hlead.head args).imp id fun hstr => ⟨hstr.1, hquotes hstr.2⟩
  · intro w hw
    obtain ⟨q, hq⟩ := htarget w hw
    exact ⟨q, List.mem_cons_of_mem _ hq⟩
  · intro u hu
    exact .inl (List.mem_cons_of_mem _ (hvalues u hu))

theorem takes_of_bare (v : Value) : (bare v line).Takes line [.value v] := by
  refine ⟨rfl, ?_, by simp [target?], by simp [values]⟩
  intro k hk
  cases v with
  | name text q =>
    cases hk
    exact .inl ⟨q, rfl⟩
  | _ => cases hk

theorem takes_of_ofItems {key : Option String} {items : List Value} {keySpan : Span} (hne : ps ≠ [])
    (h : ofItems key items keySpan line = .ok s)
    (hkey : (∃ q, ps.head? = some (.value (.name (key.getD "in") q))) ∨
      ∃ q, ps.head? = some (.value (.str (key.getD "in") q))) :
    s.Takes line (ps ++ items.map .value) ∧ s.body = [] := by
  obtain ⟨vs, rfl, hvs⟩ := ofItems_ok h
  have hhead : (ps ++ items.map Piece.value).head? = ps.head? := by
    obtain ⟨p, rest, rfl⟩ := List.exists_cons_of_ne_nil hne
    rfl
  refine ⟨⟨rfl, ?_, by simp [target?], ?_⟩, rfl⟩
  · intro k hk
    cases hk
    rw [hhead]
    exact hkey.imp id fun hstr => ⟨hstr, .inr rfl⟩
  · intro v hv
    obtain rfl | ⟨q, rfl⟩ := hvs
    · exact .inl (List.mem_append_right _ (List.mem_map_of_mem hv))
    · exact .inr ⟨key, vs, q, rfl, hv, by simp⟩

theorem takes_of_ofPredicate {key : String} {quoted : Bool} {v : Value} (hlead : Leads key quoted v)
    (h : ofPredicate key line [] args = .ok s) : s.Takes line (.value v :: args) ∧ s.body = [] := by
  obtain ⟨vs, comparator, number, upper, rfl, hvs⟩ := ofPredicate_ok h
  exact ⟨takes_of_leads hlead rfl rfl (by simp [showsQuotes]) (by simp [target?]) hvs, rfl⟩

theorem takes_of_last {key : String} {quoted : Bool} {v value : Value} {vs : List Value}
    (hlead : Leads key quoted v) (hvs : Piece.values args = .ok vs) (hlast : vs.getLast? = some value) :
    (field key quoted vs.dropLast value line).Takes line (.value v :: args) := by
  refine takes_of_leads hlead rfl rfl .inl (by simp [target?]) ?_
  intro u hu
  have hu : u ∈ vs := by
    rw [← List.dropLast_append_getLast? value hlast]
    exact hu
  rw [Piece.eq_map_of_valuesOr hvs]
  exact List.mem_map_of_mem hu

theorem takes_of_ofKeyed {key : String} {quoted : Bool} {keyValue : Value}
    (hlead : Leads key quoted keyValue) (h : ofKeyed key quoted keyValue args line = .ok s) :
    s.Takes line (.value keyValue :: args) ∧ s.body = [] := by
  cases args with
  | nil =>
    cases h
    exact ⟨takes_of_bare keyValue, rfl⟩
  | cons first more =>
    unfold ofKeyed at h
    rw [ite_eq_iff] at h
    obtain ⟨-, h⟩ | ⟨-, h⟩ := h
    · obtain ⟨items, hitems, h⟩ := Cursor.bind_eq_ok h
      rw [Piece.eq_map_of_valuesOr hitems]
      exact takes_of_ofItems (by simp) h ((hlead.head [first]).imp id And.left)
    · split at h
      · exact takes_of_ofPredicate hlead h
      · obtain ⟨vs, hvs, h⟩ := Cursor.bind_eq_ok h
        split at h
        · next value hlast =>
          cases h
          exact ⟨takes_of_last hlead hvs hlast, rfl⟩
        · cases h

theorem takes_of_shorthands {key word : String} {q : Span} {id : Value} {body : List Statement}
    (hkey : key = word) (hid : .value id ∈ args) (hbody : ∀ t ∈ body, t.IsShorthand args) :
    (block word false [id] body line).Takes line (.value (.name key q) :: args) ∧
      ∀ t ∈ (block word false [id] body line).body, t.IsShorthand (.value (.name key q) :: args) := by
  have hvalues : ∀ u ∈ (block word false [id] body line).values, .value u ∈ args := by
    simpa [values] using hid
  refine ⟨takes_of_leads (.name q) rfl (congrArg some hkey.symm) (by simp) (by simp [target?]) hvalues,
    ?_⟩
  intro t ht
  exact (hbody t ht).cons _

/-- Every shape of a line takes its word and its values from the pieces, and
so do the statements of a short form. -/
theorem takes_of_ofLine (h : ofLine ps line = .ok s) :
    s.Takes line ps ∧ ∀ t ∈ s.body, t.IsShorthand ps := by
  -- Only the two short forms make a body.
  have hshort : s.Takes line ps ∧ s.body = [] → s.Takes line ps ∧ ∀ t ∈ s.body, t.IsShorthand ps := by
    intro hs
    rw [hs.2]
    exact ⟨hs.1, by simp⟩
  rcases ps with _ | ⟨v | ⟨operator, q⟩, args⟩
  · cases h
  · cases v with
    | name key q =>
      have hlead : Leads key false (.name key q) := .name q
      simp only [ofLine] at h
      -- The tests are those of `ofLine`, in its order: a change, an origin, a list, a relationship,
      -- the two short forms, and what has no shape of its own.
      split at h
      · next hkey =>
        obtain ⟨target, r, id, change, n, rfl, htarget, hid⟩ := ofMutate_ok h
        have hid : ∀ u ∈ (mutate target id change n line).values, .value u ∈ args := by
          simpa [values] using hid
        refine hshort ⟨takes_of_leads hlead rfl (congrArg some hkey.symm) (by simp) ?_ hid, rfl⟩
        intro w hw
        cases hw
        exact ⟨r, htarget⟩
      split at h
      · next hkey =>
        obtain ⟨source, via, rfl, hvs⟩ := ofOrigin_ok h
        exact hshort
          ⟨takes_of_leads hlead rfl (congrArg some hkey.symm) (by simp) (by simp [target?]) hvs, rfl⟩
      split at h
      · next hkey =>
        obtain ⟨items, hitems, h⟩ := Cursor.bind_eq_ok h
        apply hshort
        rw [← List.singleton_append, Piece.eq_map_of_valuesOr hitems]
        refine takes_of_ofItems (by simp) h (.inl ⟨q, ?_⟩)
        rw [hkey]
        rfl
      split at h
      · obtain ⟨label, kind, source, target, vs, rfl, hvs⟩ := ofRel_ok h
        exact hshort ⟨takes_of_leads hlead rfl rfl (by simp) (by simp [target?]) hvs, rfl⟩
      split at h
      · next hkey =>
        obtain ⟨id, body, rfl, hid, hbody⟩ := ofAxisLine_ok h
        have hkey : key = "axis" := of_decide_eq_true (Bool.and_eq_true_iff.1 hkey).1
        exact takes_of_shorthands hkey hid hbody
      split at h
      · next hkey =>
        obtain ⟨kind, body, rfl, hkind, hbody⟩ := ofRelationshipKindLine_ok h
        have hkey : key = "relationship_kind" := of_decide_eq_true (Bool.and_eq_true_iff.1 hkey).1
        exact takes_of_shorthands hkey hkind hbody
      · exact hshort (takes_of_ofKeyed hlead h)
    | str key q =>
      cases args with
      | nil =>
        cases h
        exact hshort ⟨takes_of_bare _, rfl⟩
      | cons first more =>
        have h : ofKeyed key true (.str key q) (first :: more) line = .ok s := h
        exact hshort (takes_of_ofKeyed (.str q) h)
    | _ =>
      cases args with
      | nil =>
        cases h
        exact hshort ⟨takes_of_bare _, rfl⟩
      | cons first more => cases h
  · cases h

theorem takes_of_blockHeader {header : Span} {name : String} {quoted : Bool} {labels : List Value}
    {body : List Statement} (h : blockHeader ps header = .ok (name, quoted, labels)) :
    (block name quoted labels body line).Takes line ps := by
  have hblock : ∀ {key : String} {isString : Bool} {v : Value} {rest : List Piece},
    Leads key isString v →
      (Piece.valuesOr .operatorInBlockHeader rest >>= fun labels => pure (key, isString, labels)) =
        .ok (name, quoted, labels) →
      (block name quoted labels body line).Takes line (.value v :: rest) := by
    intro key isString v rest hlead h
    obtain ⟨vs, hvs, heq⟩ := Cursor.bind_eq_ok h
    cases heq
    refine takes_of_leads hlead rfl rfl .inl (by simp [target?]) ?_
    intro u hu
    rw [Piece.eq_map_of_valuesOr hvs]
    exact List.mem_map_of_mem hu
  rcases ps with _ | ⟨v | ⟨operator, q⟩, rest⟩
  · cases h
  · cases v with
    | name key q =>
      simp only [blockHeader] at h
      split at h
      · cases h
      · exact hblock (.name q) h
    | str key q => exact hblock (.str q) h
    | _ => cases h
  · cases h

end Statement

end Worldbook
