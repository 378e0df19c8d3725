import Worldbook.Filter.Compile
import Worldbook.Filter.Write
import Worldbook.Proofs.Fields

/-!
# Filters on one line

A filter that its keyword can express is read back as the same filter. What `has_relationship` and
its opposite share also stands in the constraints of paths.
-/

namespace Worldbook.Filter

open Written CompileM

/-! ## Words that do not change -/

section
variable {o o' : Record}

theorem stringArray?_of_rewritten (h : Rewritten o o') (ht : (Json.obj o).isTame = true) (key : String)
    (hk : key ≠ "max") : stringArray? o' key = stringArray? o key := by
  rw [stringArray?, stringArray?, h.get? key hk]
  cases hx : o.get? key with
  | none => rfl
  | some x =>
    have htx := isTame_of_get? ht hx
    simp only [Option.map_some, Option.bind_eq_bind, Option.bind_some, value_reread htx,
      Json.strings?_of_recovers (Json.recovers_reread (Json.isValid_of_isTame htx))]

theorem inlineValue?_of_rewritten (h : Rewritten o o') (ht : (Json.obj o).isTame = true) (key : String)
    (hk : key ≠ "max") : inlineValue? o' key = inlineValue? o key := h.inlineValue ht key hk

theorem relationshipWords?_of_alike (h : Alike o o') :
    relationshipWords? o' = relationshipWords? o := by
  simp [relationshipWords?, Written.hasOnly, h.hasOnly, h.text?, h.optionalText?]

end

theorem relationshipFields_of {o : Record} {ws : List String} (h : relationshipWords? o = some ws) :
    hasOnly o ["kind", "with", "direction"] = true ∧ ∃ Ps, List.Forall₂ Word ws Ps ∧
      ∀ word s vs b, s.IsLine word vs b → Meets Ps vs →
        relationshipFields s = pure (o.reread ["kind", "with", "direction"]) := by
  simp [relationshipWords?, Option.bind_eq_some_iff] at h
  obtain ⟨hall, kind, hkind, partner, hpartner, direction, hdirection, rfl⟩ := h
  have hwith :=
    forall₂_marked (word_name (w := "with") (by decide) (by decide) (by decide)) word_reference partner
  have hdir :=
    forall₂_marked (word_name (w := "direction") (by decide) (by decide) (by decide))
      word_string direction
  refine ⟨hall, _, .cons (word_string kind) (List.rel_append hwith hdir), fun word s vs b hs hvs => ?_⟩
  rcases hvs with _ | ⟨hkind', hvs⟩
  have hapart : Args.Apart "with" (markedValues "direction" Value.Says direction) := by
    rw [← List.append_nil (markedValues _ _ _)]
    exact Args.apart_markedValues (by decide) _ _ (Args.apart_nil _)
  obtain ⟨v, us, hv, hus, hpartner'⟩ :=
    Args.markedValue_of word s.span hapart "an entity after 'with'" hvs
  rw [← List.append_nil (markedValues _ _ _)] at hus
  obtain ⟨us, hus, hdirection'⟩ := Args.markedText_of word s.span (Args.apart_nil _) "a direction" hus
  cases hus
  simp only [relationshipFields, hs.args, Args.text_cons hkind'.text?, hpartner',
    optionalReference_eq hv, hdirection', Args.finish_nil, pure_bind, liftM_pure]
  rw [Record.reread_text hkind, Record.reread_optionalText hpartner,
    Record.reread_optionalText hdirection, Record.reread_nil, List.append_nil]
  rfl

namespace Keyword

variable {o o' : Record} {k : Keyword} {ws : List String}

theorem ofWord?_word (k : Keyword) : ofWord? k.word = some k := by cases k <;> rfl

theorem leads (k : Keyword) : Leads k.word := by
  cases k <;> exact ⟨by decide, by decide, by decide⟩

/-- What a filter comes back as. Of a size both bounds are written, so both have to be reread. -/
structure Settles (k : Keyword) (o o' : Record) : Prop where
  rewritten : Rewritten o o'
  sizes : k = componentSize → o'.get? "max" = (o.get? "max").map Json.reread

theorem bound?_eq (o : Record) (key : String) : bound? o key = match (o.get? key).map Json.number? with
    | none => some []
    | some (some n) => some [key, number n]
    | some none => none := by
  rw [bound?]
  rcases o.get? key with _ | (_ | _ | _ | _ | _ | _) <;> rfl

theorem words?_of_settles (h : k.Settles o o') (ht : (Json.obj o).isTame = true) :
    k.words? o' = k.words? o := by
  have hr := h.rewritten
  have ha := hr.alike ht
  have href : ∀ f : String → List String,
    ((o'.get? "with").bind fun v => some (f (Written.referenceValue v))) =
      (o.get? "with").bind fun v => some (f (Written.referenceValue v)) := by
    intro f
    have := congrArg (fun w : Option String => w.bind fun w => some (f w))
      (hr.referenceValue ht "with" (by decide))
    simpa [Option.bind_map, Function.comp_def] using this
  by_cases hk : k = componentSize
  · have hmin : bound? o' "min" = bound? o "min" := by
      rw [bound?_eq, bound?_eq, hr.get? "min" (by decide), Rewritten.map_number? ht]
    have hmax : bound? o' "max" = bound? o "max" := by
      rw [bound?_eq, bound?_eq, h.sizes hk, Rewritten.map_number? ht]
    simp [hk, words?, Written.hasOnly, ha.hasOnly,
      stringArray?_of_rewritten hr ht "relationshipKinds" (by decide),
      hmin, hmax]
  · cases k <;> simp [words?, Written.hasOnly, ha.hasOnly, ha.text?, ha.strings?,
      relationshipWords?_of_alike ha, stringArray?_of_rewritten hr ht "tags" (by decide),
      inlineValue?_of_rewritten hr ht "value" (by decide),
      href fun w => [w], fun s => href fun w => [string s, "with", w]]
    · exact absurd rfl hk

/-! ## The fields of a line -/

abbrev Restores (k : Keyword) (o : Record) (s : Statement) : Prop :=
  s.comparison? = none ∧
    Worldbook.Restores k.word k.fields (fun r => k.Settles o (textField "type" k.word :: r)) s

theorem settles_of {r : Record} {keys : List String} (hall : hasOnly o keys = true)
    (hn : ("type" :: keys).Nodup) (htype : text? o "type" = some k.word) (h : r = o.reread keys) :
    k.Settles o (textField "type" k.word :: r) := by
  have hr : textField "type" k.word :: r = o.reread ("type" :: keys) := by
    rw [h, Record.reread_text htype]
  refine ⟨rewritten_reread hall hn hr, fun _ => ?_⟩
  rw [hr, Record.get?_reread]
  split
  · rfl
  · next hk => rw [Record.get?_eq_none_iff.2 fun hm => hk (Record.hasOnly_iff.1 hall _ hm)]; rfl

theorem exists_strings {key w : String} (h : stringArray? o key = some w) :
    ∃ ss : List String, ss ≠ [] ∧
    o.get? key = some (.arr (ss.map .str)) ∧ w = value (.arr (ss.map .str)) := by
  simp only [stringArray?, Option.bind_eq_bind, Option.bind_eq_some_iff, strings?_eq_some,
    Option.pure_def, Option.some.injEq] at h
  obtain ⟨v, hv, ss, ⟨hne, rfl⟩, rfl⟩ := h
  exact ⟨ss, hne, hv, rfl⟩

section
variable (htype : text? o "type" = some k.word)
include htype

theorem parses_exclude (hk : k = exclude) (h : k.words? o = some ws) :
    (Node.line (k.word :: ws)).Parses (k.Restores o) := by
  subst hk
  simp [words?, Option.bind_eq_some_iff, strings?_eq_some] at h
  obtain ⟨hall, entities, ⟨hentities, hne⟩, rfl⟩ := h
  refine (leads _).parses_plain (forall₂_references entities) fun s vs hs hvs => ?_
  refine ⟨[("entities", .arr (entities.map .str))], fun body => ?_,
    settles_of hall (by decide) htype ?_⟩
  · have hempty : (entities.map Json.str).isEmpty = false := by simpa using hne
    simp only [fields, hs.args, Args.flat_of_says (Value.says_of_cites hvs),
      mapM_requiredReference hvs, hempty, Bool.false_eq_true, if_false, pure_bind]
  · rw [Record.reread_of_some hentities]
    simp [Record.reread_nil, Json.reread, Json.rereadItems_eq_map]

theorem parses_lacksTag (hk : k = lacksTag) (h : k.words? o = some ws) :
    (Node.line (k.word :: ws)).Parses (k.Restores o) := by
  subst hk
  simp [words?, Option.bind_eq_some_iff] at h
  obtain ⟨hall, tag, htag, rfl⟩ := h
  refine (leads _).parses_plain (.cons (word_string tag) .nil) fun s vs hs hvs => ?_
  rcases hvs with _ | ⟨htag', _ | _⟩
  refine ⟨[textField "tag" tag], fun body => ?_, settles_of hall (by decide) htype ?_⟩
  · simp only [fields, hs.args, Args.text_cons htag'.text?, Args.finish_nil, pure_bind]
  · rw [Record.reread_text htag, Record.reread_nil]

theorem parses_relationship (hk : k = hasRelationship ∨ k = lacksRelationship)
    (h : k.words? o = some ws) : (Node.line (k.word :: ws)).Parses (k.Restores o) := by
  have hwords : relationshipWords? o = some ws := by rcases hk with rfl | rfl <;> exact h
  have hfields : ∀ s body, k.fields s body = relationshipFields s := by
    rcases hk with rfl | rfl <;> exact fun s body => rfl
  obtain ⟨hall, Ps, hargs, hread⟩ := relationshipFields_of hwords
  refine (leads k).parses_plain hargs fun s vs hs hvs =>
    ⟨o.reread ["kind", "with", "direction"], fun body => ?_, settles_of hall (by decide) htype rfl⟩
  rw [hfields, hread k.word s vs none hs hvs]

theorem parses_hasTag (hv : (Json.obj o).isValid = true) (hk : k = hasTag) (h : k.words? o = some ws) :
    (Node.line (k.word :: ws)).Parses (k.Restores o) := by
  subst hk
  simp [words?, Option.bind_eq_some_iff] at h
  obtain ⟨hall, tag, htag, args, hargs, rfl⟩ := h
  cases hval : o.get? "value" with
  | none =>
    rw [inlineValue?, hval] at hargs
    cases hargs
    refine (leads _).parses_plain (.cons (word_string tag) .nil) fun s vs hs hvs => ?_
    rcases hvs with _ | ⟨htag', _ | _⟩
    refine ⟨[textField "tag" tag], fun body => ?_, settles_of hall (by decide) htype ?_⟩
    · simp only [fields, hs.args, Args.text_cons htag'.text?, Args.value?_nil,
        Args.finish_nil, pure_bind, Option.map_none, Option.toList_none]
    · rw [Record.reread_text htag, Record.reread_of_none hval, Record.reread_nil]
  | some x =>
    simp only [inlineValue?, hval, Option.ite_none_right_eq_some, Option.some.injEq] at hargs
    obtain ⟨-, rfl⟩ := hargs
    refine (leads _).parses_plain
      (.cons (word_string tag) (.cons (word_value (isValid_of_get? hv hval)) .nil))
      fun s vs hs hvs => ?_
    rcases hvs with _ | ⟨htag', _ | ⟨hx, _ | _⟩⟩
    refine ⟨[textField "tag" tag, ("value", x.reread)], fun body => ?_,
      settles_of hall (by decide) htype ?_⟩
    · simp only [fields, hs.args, Args.text_cons htag'.text?, Args.value?_cons,
        Args.finish_nil, pure_bind, Option.map_some, Option.toList_some, hx.literal]
    · rw [Record.reread_text htag, Record.reread_of_some hval, Record.reread_nil]

theorem parses_hasAnyTag (hv : (Json.obj o).isValid = true) (hk : k = hasAnyTag)
    (h : k.words? o = some ws) : (Node.line (k.word :: ws)).Parses (k.Restores o) := by
  subst hk
  simp [words?, Option.bind_eq_some_iff] at h
  obtain ⟨hall, w, hw, rfl⟩ := h
  obtain ⟨ss, hne, hss, rfl⟩ := exists_strings hw
  refine (leads _).parses_plain (.cons (word_value (isValid_of_get? hv hss)) .nil) fun s vs hs hvs => ?_
  rcases hvs with _ | ⟨htags, _ | _⟩
  obtain ⟨items, span, rfl, hitems⟩ := htags.array
  refine ⟨[("tags", Json.reread (.arr (ss.map .str)))], fun body => ?_,
    settles_of hall (by decide) htype ?_⟩
  · have hempty : ((ss.map Json.str).map Json.reread).isEmpty = false := by simpa using hne
    simp only [fields, hs.args, Args.flat, List.flatMap_cons, List.flatMap_nil, List.append_nil,
      hitems, hempty, Bool.false_eq_true, if_false, Json.reread, Json.rereadItems_eq_map]
  · rw [Record.reread_of_some hss, Record.reread_nil]

theorem parses_sharesRelated (hv : (Json.obj o).isValid = true) (hk : k = sharesRelated)
    (h : k.words? o = some ws) : (Node.line (k.word :: ws)).Parses (k.Restores o) := by
  subst hk
  simp [words?, Option.bind_eq_some_iff] at h
  obtain ⟨hall, kind, hkind, x, hx, rfl⟩ := h
  refine (leads _).parses_plain
    (.cons (word_string kind) (.cons (word_name (by decide) (by decide) (by decide))
    (.cons (word_referenceValue (isValid_of_get? hv hx)) .nil))) fun s vs hs hvs => ?_
  rcases hvs with _ | ⟨hkind', _ | ⟨hm, _ | ⟨hx', _ | _⟩⟩⟩
  refine ⟨[textField "relationshipKind" kind, ("with", x.reread)], fun body => ?_,
    settles_of hall (by decide) htype ?_⟩
  · simp only [fields, hs.args, Args.text_cons hkind'.text?, Args.markedValue,
      Args.marker_cons hm, if_true, Args.value_cons, reference_eq hx', Args.finish_nil,
      pure_bind, liftM_pure]
  · rw [Record.reread_text hkind, Record.reread_of_some hx, Record.reread_nil]

theorem parses_culturePartner (hv : (Json.obj o).isValid = true)
    (hk : k = matchesCulture ∨ k = notMatchesCulture) (h : k.words? o = some ws) :
    (Node.line (k.word :: ws)).Parses (k.Restores o) := by
  have hwords : hasOnly o ["with"] = true ∧ ∃ x, o.get? "with" = some x ∧
    [Written.referenceValue x] = ws := by
    rcases hk with rfl | rfl <;> simpa [words?, Option.bind_eq_some_iff] using h
  obtain ⟨hall, x, hx, rfl⟩ := hwords
  have hfields : ∀ s body, k.fields s body = matchesCulture.fields s body := by
    rcases hk with rfl | rfl <;> exact fun s body => rfl
  refine (leads k).parses_plain (.cons (word_referenceValue (isValid_of_get? hv hx)) .nil)
    fun s vs hs hvs => ?_
  rcases hvs with _ | ⟨hx', _ | _⟩
  refine ⟨[("with", x.reread)], fun body => ?_, settles_of hall (by decide) htype ?_⟩
  · rw [hfields]
    simp only [fields, hs.args, Args.value_cons, reference_eq hx', Args.finish_nil,
      pure_bind, liftM_pure]
  · rw [Record.reread_of_some hx, Record.reread_nil]

theorem parses_culture (hk : k = hasCulture ∨ k = notHasCulture) (h : k.words? o = some ws) :
    (Node.line (k.word :: ws)).Parses (k.Restores o) := by
  have hwords : hasOnly o ["culture"] = true ∧ ∃ c, text? o "culture" = some c ∧ [string c] = ws := by
    rcases hk with rfl | rfl <;> simpa [words?, Option.bind_eq_some_iff] using h
  obtain ⟨hall, c, hc, rfl⟩ := hwords
  have hfields : ∀ s body, k.fields s body = hasCulture.fields s body := by
    rcases hk with rfl | rfl <;> exact fun s body => rfl
  refine (leads k).parses_plain (.cons (word_string c) .nil) fun s vs hs hvs => ?_
  rcases hvs with _ | ⟨hc', _ | _⟩
  refine ⟨[textField "culture" c], fun body => ?_, settles_of hall (by decide) htype ?_⟩
  · rw [hfields]
    simp only [fields, hs.args, Args.text_cons hc'.text?, Args.finish_nil, pure_bind]
  · rw [Record.reread_text hc, Record.reread_nil]

omit htype in
/-- A bound of a size is a word and a number, or nothing. -/
theorem exists_bound {key : String} {ws : List String} (h : bound? o key = some ws) :
    (o.get? key = none ∧ ws = []) ∨ ∃ n, o.get? key = some (.num n) ∧ ws = [key, number n] := by
  rw [bound?] at h
  split at h
  · next hn => cases h; exact .inl ⟨hn, rfl⟩
  · next n hn => cases h; exact .inr ⟨n, hn, rfl⟩
  · cases h

omit htype in
/-- A bound is not taken for one of the kinds in front of it. -/
theorem leadingKinds_of {vs : List Value} (h : ∀ v ∈ vs.head?, v.Names "min" ∨ v.Names "max") :
    leadingKinds vs = ([], vs) := by
  cases vs with
  | nil => rfl
  | cons v vs => rcases h v rfl with ⟨_, rfl⟩ | ⟨_, rfl⟩ <;> rfl

omit htype in
theorem bounds_head {Ps Rs : List (Value → Prop)} {vs : List Value}
    (hp : ∀ P ∈ Ps.head?, ∀ v, P v → v.Names "min") (hr : ∀ R ∈ Rs.head?, ∀ v, R v → v.Names "max")
    (h : Meets (Ps ++ Rs) vs) : ∀ v ∈ vs.head?, v.Names "min" ∨ v.Names "max" := by
  intro v hv
  cases Ps with
  | nil =>
    cases h with
    | nil => cases hv
    | cons hR _ => cases hv; exact .inr (hr _ rfl _ hR)
  | cons P Ps =>
    rcases h with _ | ⟨hP, _⟩
    cases hv
    exact .inl (hp P rfl _ hP)

omit htype in
/-- The bounds of a size are read one after the other, `rest` being what follows. -/
theorem sizeBound_of (hv : (Json.obj o).isValid = true) {key : String} {ws : List String}
    (hw : Word key (·.Names key)) (h : bound? o key = some ws) : ∃ Ps, List.Forall₂ Word ws Ps ∧
      (∀ P ∈ Ps.head?, ∀ v, P v → v.Names key) ∧
      ∀ word span Rs vs, Meets (Ps ++ Rs) vs → Args.Apart key Rs → ∃ us, Meets Rs us ∧
        sizeBound ⟨word, span, vs⟩ key = pure (o.reread [key], ⟨word, span, us⟩) := by
  rcases exists_bound h with ⟨hn, rfl⟩ | ⟨n, hn, rfl⟩
  · refine ⟨[], .nil, nofun, fun word span Rs vs hvs hap => ⟨vs, hvs, ?_⟩⟩
    simp only [sizeBound, Args.marker_of_apart hap hvs, Record.reread_of_none hn, Record.reread_nil]
  · refine ⟨_, .cons hw (.cons (word_number (isHeld_of_get? hv hn)) .nil), ?_,
      fun word span Rs vs hvs _ => ?_⟩
    · rintro P ⟨⟩ v hP
      exact hP
    · rcases hvs with _ | ⟨hm, _ | ⟨hn', hus⟩⟩
      refine ⟨_, hus, ?_⟩
      simp only [sizeBound, Args.marker_cons hm, if_true, Args.number_cons hn'.number?, pure_bind,
        Json.ofNumber_of_isFinite hn'.isFinite, Record.reread_of_some hn,
        Record.reread_nil, Json.reread]

theorem parses_componentSize (hv : (Json.obj o).isValid = true) (hk : k = componentSize)
    (h : k.words? o = some ws) : (Node.line (k.word :: ws)).Parses (k.Restores o) := by
  subst hk
  simp [words?, Option.bind_eq_some_iff] at h
  obtain ⟨hall, w, hw, least, hleast, most, hmost, rfl⟩ := h
  obtain ⟨ss, hne, hss, rfl⟩ := exists_strings hw
  obtain ⟨Ps, hPs, hhead, hmin⟩ :=
    sizeBound_of hv (word_name (by decide) (by decide) (by decide)) hleast
  obtain ⟨Rs, hRs, hhead', hmax⟩ :=
    sizeBound_of hv (word_name (by decide) (by decide) (by decide)) hmost
  refine (leads _).parses_plain (.cons (word_value (isValid_of_get? hv hss)) (List.rel_append hPs hRs))
    fun s vs hs hvs => ?_
  rcases hvs with _ | ⟨hkinds, hvs⟩
  obtain ⟨items, span, rfl, hitems⟩ := hkinds.array
  have hapart : Args.Apart "min" Rs := by
    intro R hR v hv
    rw [(hhead' R hR v hv).isWord]
    rfl
  have hstop := leadingKinds_of (bounds_head hhead hhead' hvs)
  obtain ⟨us, hus, hleast'⟩ := hmin componentSize.word s.span Rs _ hvs hapart
  obtain ⟨us, hus, hmost'⟩ :=
    hmax componentSize.word s.span [] us (by rwa [List.append_nil]) (Args.apart_nil _)
  cases hus
  refine ⟨("relationshipKinds", Json.reread (.arr (ss.map .str))) :: o.reread ["min"] ++
    o.reread ["max"], fun body => ?_, settles_of hall (by decide) htype ?_⟩
  · have hempty : ((ss.map Json.str).map Json.reread).isEmpty = false := by simpa using hne
    simp only [fields, hs.args, leadingKinds, hstop, hitems, List.append_nil, hempty,
      Bool.false_eq_true, if_false, hleast', hmost', Args.finish_nil, pure_bind, Json.reread,
      Json.rereadItems_eq_map]
  · rw [Record.reread_of_some hss, List.cons_append, ← Record.reread_append]; rfl

theorem parses_line (hv : (Json.obj o).isValid = true) (h : k.words? o = some ws) :
    (Node.line (k.word :: ws)).Parses (k.Restores o) := by
  cases k with
  | exclude => exact parses_exclude htype rfl h
  | hasRelationship => exact parses_relationship htype (.inl rfl) h
  | lacksRelationship => exact parses_relationship htype (.inr rfl) h
  | hasTag => exact parses_hasTag htype hv rfl h
  | lacksTag => exact parses_lacksTag htype rfl h
  | hasAnyTag => exact parses_hasAnyTag htype hv rfl h
  | componentSize => exact parses_componentSize htype hv rfl h
  | sharesRelated => exact parses_sharesRelated htype hv rfl h
  | matchesCulture => exact parses_culturePartner htype hv (.inl rfl) h
  | notMatchesCulture => exact parses_culturePartner htype hv (.inr rfl) h
  | hasCulture => exact parses_culture htype (.inl rfl) h
  | notHasCulture => exact parses_culture htype (.inr rfl) h
  | graphPath => cases h
  | generic => cases h

end

end Keyword

/-! ## Statements -/

theorem Keyword.isSome_words? {o o' : Record} (h : Alike o o') (k : Keyword) :
    (k.words? o').isSome = (k.words? o).isSome := by
  have hbound : ∀ key, (bound? o' key).isSome = (bound? o key).isSome := by
    intro key
    rw [bound?, bound?]
    rcases h.cases_get? key with ⟨hx, hy⟩ | ⟨x, y, hx, hy, -, hr⟩
    · rw [hx, hy]
    · rw [hx, hy]
      cases x <;> cases y <;> first | rfl | cases hr
  have hinline : ∀ key, (inlineValue? o' key).isSome = (inlineValue? o key).isSome := by
    intro key
    rw [inlineValue?, inlineValue?]
    rcases h.cases_get? key with ⟨hx, hy⟩ | ⟨x, y, hx, hy, ht, hr⟩
    · rw [hx, hy]
    · simp only [hx, hy, Alike.isInline_of_recovers ht hr]
      split <;> rfl
  have hstrings : ∀ key, (stringArray? o' key).isSome = (stringArray? o key).isSome := by
    intro key
    have := congrArg Option.isSome (h.strings? key)
    rw [Option.isSome_bind, Option.isSome_bind] at this
    simp [stringArray?, Option.isSome_bind, this]
  cases k <;> simp [Keyword.words?, Written.hasOnly, h.hasOnly, h.text?, h.strings?,
    relationshipWords?_of_alike h, Option.isSome_bind, any_const, hbound, hinline, hstrings,
    h.get?_isSome,
    apply_ite Option.isSome]

/-- A line of a keyword compiles to a record that is written alike. -/
theorem compile_of_restores {k : Keyword} {o : Record} {s : Statement} (h : k.Restores o s)
    (hk : k.isBlock = false) : ∃ o', k.Settles o o' ∧ ∀ body, compile s body = pure (.obj o') := by
  obtain ⟨hplain, ⟨vs, b, hs⟩, r, hfields, hr⟩ := h
  refine ⟨_, hr, fun body => ?_⟩
  have hfits : k.fits s = true := by
    cases hs with
    | predicate => cases hplain
    | _ => simp [Keyword.fits, hk]
  have hgen : k ≠ .generic := by rintro rfl; cases hk
  simp only [compile, hs.plainKeyword?, Option.bind_some, Keyword.ofWord?_word, hfits, Bool.not_true,
    Bool.false_eq_true, if_false, hfields body, pure_bind, hgen]

end Worldbook.Filter
