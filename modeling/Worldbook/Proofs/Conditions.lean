import Worldbook.Condition.Compile
import Worldbook.Condition.Write
import Worldbook.Proofs.Fields

/-!
# Conditions on one line

A condition that its keyword can express is read back as the same condition, with its fields in the
order of the keyword, and that record has the same words again.
-/

namespace Worldbook.Condition

open Written CompileM

namespace Keyword

variable {o o' : Record} {k : Keyword} {ws : List String}

theorem ofWord?_word (k : Keyword) : ofWord? k.word = some k := by cases k <;> rfl

theorem leads (k : Keyword) : Leads k.word := by
  cases k <;> exact ⟨by decide, by decide, by decide⟩

theorem words?_of_rewritten (h : Rewritten o o') (ht : (Json.obj o).isTame = true) (k : Keyword) :
    k.words? o' = k.words? o := by
  have ha := h.alike ht
  cases k <;> simp [words?, Written.hasOnly, ha.hasOnly, ha.text?, ha.optionalText?,
    h.requiredBounds? ht, h.bounds? ht, h.number? ht "chance" (by decide),
    h.number? ht "minTicks" (by decide), ha.strings?, ha.length,
    relationshipWords?]

/-! ## The fields of a line -/

abbrev Restores (k : Keyword) (o : Record) : Statement → Prop :=
  Worldbook.Restores k.word k.fields fun r => Rewritten o (textField "type" k.word :: r)

theorem word_kind : Word "kind" (·.Names "kind") := word_name (by decide) (by decide) (by decide)

section
variable (hv : (Json.obj o).isValid = true)
include hv

theorem parses_pressure (htype : text? o "type" = some pressure.word)
    (h : pressure.words? o = some ws) :
    (Node.line (pressure.word :: ws)).Parses (pressure.Restores o) := by
  simp [words?, Option.bind_eq_some_iff] at h
  obtain ⟨hall, id, hid, bs, hbs, rfl⟩ := h
  obtain ⟨hbs, hne⟩ := requiredBounds?_eq_some.1 hbs
  obtain ⟨b, r, hb⟩ := exists_bounded hv hbs
  refine (leads _).parses_of (.cons (word_string id) .nil) hb.compared fun s vs hs hvs => ?_
  rcases hvs with _ | ⟨hid', _ | _⟩
  refine ⟨textField "pressureId" id :: r, fun body => ?_, ?_⟩
  · simp only [fields, hs.args, Args.text_cons hid'.text?, hb.required hne hs.comparison?,
      Args.finish_nil, pure_bind]
  · have := hb.rewritten ["type", "pressureId"] hall (by decide)
    rwa [Record.reread_text htype, Record.reread_text hid, Record.reread_nil] at this

theorem parses_cap (htype : text? o "type" = some cap.word) (h : cap.words? o = some ws) :
    (Node.line (cap.word :: ws)).Parses (cap.Restores o) := by
  simp [words?, Option.bind_eq_some_iff] at h
  obtain ⟨hall, kind, hkind, bs, hbs, rfl⟩ := h
  obtain ⟨hbs, hne⟩ := requiredBounds?_eq_some.1 hbs
  obtain ⟨b, r, hb⟩ := exists_bounded hv hbs
  refine (leads _).parses_of (.cons word_kind (.cons (word_string kind) .nil)) hb.compared
    fun s vs hs hvs => ?_
  rcases hvs with _ | ⟨hm, _ | ⟨hkind', _ | _⟩⟩
  refine ⟨textField "kind" kind :: r, fun body => ?_, ?_⟩
  · simp only [fields, hs.args, Args.marker_cons hm, if_true, Args.text_cons hkind'.text?,
      hb.required hne hs.comparison?, Args.finish_nil, pure_bind]
  · have := hb.rewritten ["type", "kind"] hall (by decide)
    rwa [Record.reread_text htype, Record.reread_text hkind, Record.reread_nil] at this

theorem parses_entityCount (htype : text? o "type" = some entityCount.word)
    (h : entityCount.words? o = some ws) :
    (Node.line (entityCount.word :: ws)).Parses (entityCount.Restores o) := by
  simp [words?, Option.bind_eq_some_iff] at h
  obtain ⟨hall, kind, hkind, subtype, hsubtype, status, hstatus, hboth, bs, hbs, rfl⟩ := h
  obtain ⟨b, r, hb⟩ := exists_bounded hv hbs
  have hwords := forall₂_strings (subtype.toList ++ status.toList)
  rw [List.map_append, ← Option.toList_map, ← Option.toList_map] at hwords
  rw [← List.append_assoc, ← List.cons_append, ← List.cons_append]
  refine (leads _).parses_of (.cons word_kind (.cons (word_string kind) hwords)) hb.compared
    fun s vs hs hvs => ?_
  rcases hvs with _ | ⟨hm, _ | ⟨hkind', hvs⟩⟩
  obtain ⟨a, hsub, hstat⟩ := Args.text?_optional_two entityCount.word s.span hboth hvs
  refine ⟨textField "kind" kind :: optionalText "subtype" subtype ++ optionalText "status" status ++ r,
    fun body => ?_, ?_⟩
  · simp only [fields, hs.args, Args.marker_cons hm, if_true, Args.text_cons hkind'.text?, hsub, hstat,
      hb.optional hs.comparison?, Args.finish_nil, pure_bind]
  · have := hb.rewritten ["type", "kind", "subtype", "status"] hall (by decide)
    rw [Record.reread_text htype, Record.reread_text hkind, Record.reread_optionalText hsubtype,
      Record.reread_optionalText hstatus, Record.reread_nil] at this
    simpa using this

omit hv in
theorem parses_tag (hk : k = tagExists ∨ k = lacksTag) (htype : text? o "type" = some k.word)
    (h : k.words? o = some ws) : (Node.line (k.word :: ws)).Parses (k.Restores o) := by
  have hwords : hasOnly o ["tag", "entity"] = true ∧ ∃ tag, text? o "tag" = some tag ∧ ∃ entity,
      optionalText? o "entity" = some entity ∧
        string tag :: (entity.map Written.reference).toList = ws := by
    rcases hk with rfl | rfl <;> simpa [words?, Option.bind_eq_some_iff] using h
  obtain ⟨hall, tag, htag, entity, hentity, rfl⟩ := hwords
  have hfields : ∀ s body, k.fields s body = tagExists.fields s body := by
    rcases hk with rfl | rfl <;> exact fun s body => rfl
  rw [Option.toList_map]
  refine (leads _).parses_words (.cons (word_string tag) (forall₂_references entity.toList))
    fun s vs hs hvs => ?_
  rcases hvs with _ | ⟨htag', hvs⟩
  refine ⟨textField "tag" tag :: optionalText "entity" entity, fun body => ?_, ?_⟩
  · rw [hfields]
    cases entity with
    | none =>
      cases hvs
      simp only [fields, hs.args, Args.text_cons htag'.text?, Args.value?_nil, optionalReference,
        Args.finish_nil, pure_bind, liftM_pure]
      rfl
    | some e =>
      rcases hvs with _ | ⟨he, _ | _⟩
      simp only [fields, hs.args, Args.text_cons htag'.text?, Args.value?_cons,
        optionalReference_eq (.some he), Args.finish_nil, pure_bind, liftM_pure]
  · refine rewritten_reread hall (by decide) ?_
    rw [Record.reread_text htype, Record.reread_text htag, Record.reread_optionalText hentity,
      Record.reread_nil, List.append_nil]

omit hv in
theorem relationshipFields_of (h : relationshipWords? o = some ws) : ∃ Ps, List.Forall₂ Word ws Ps ∧
    ∀ word span vs, Meets Ps vs → relationshipFields ⟨word, span, vs⟩ =
      pure (o.reread ["relationshipKind", "direction", "targetKind", "targetStatus"],
        ⟨word, span, []⟩) := by
  simp [relationshipWords?, Option.bind_eq_some_iff] at h
  obtain ⟨kind, hkind, direction, hdirection, target, htarget, status, hstatus, hboth, rfl⟩ := h
  have hwords := forall₂_strings (target.toList ++ status.toList)
  rw [List.map_append, ← Option.toList_map, ← Option.toList_map] at hwords
  refine ⟨_, .cons (word_string kind) (.cons (word_string direction) hwords),
    fun word span vs hvs => ?_⟩
  rcases hvs with _ | ⟨hkind', _ | ⟨hdirection', hvs⟩⟩
  obtain ⟨a, htext, hmore⟩ := Args.text?_optional_two word span hboth hvs
  simp only [relationshipFields, Args.text_cons hkind'.text?, Args.text_cons hdirection'.text?, htext,
    hmore, pure_bind]
  rw [Record.reread_text hkind, Record.reread_text hdirection, Record.reread_optionalText htarget,
    Record.reread_optionalText hstatus, Record.reread_nil, List.append_nil]
  rfl

omit hv in
theorem parses_relationshipExists (htype : text? o "type" = some relationshipExists.word)
    (h : relationshipExists.words? o = some ws) :
    (Node.line (relationshipExists.word :: ws)).Parses (relationshipExists.Restores o) := by
  simp [words?] at h
  obtain ⟨hall, hwords⟩ := h
  obtain ⟨Ps, hargs, hfields⟩ := relationshipFields_of hwords
  refine (leads _).parses_words hargs fun s vs hs hvs =>
    ⟨o.reread ["relationshipKind", "direction", "targetKind", "targetStatus"], fun body => ?_, ?_⟩
  · simp only [fields, hs.args, hfields _ _ vs hvs, hs.comparison?, Option.isSome_none,
      Bool.false_eq_true, if_false, Args.finish_nil, pure_bind]
  · exact rewritten_reread hall (by decide) (Record.reread_text htype _).symm

theorem parses_relationshipCount (htype : text? o "type" = some relationshipCount.word)
    (h : relationshipCount.words? o = some ws) :
    (Node.line (relationshipCount.word :: ws)).Parses (relationshipCount.Restores o) := by
  simp [words?, Option.bind_eq_some_iff] at h
  obtain ⟨hall, args, hwords, bs, hbs, rfl⟩ := h
  obtain ⟨b, r, hb⟩ := exists_bounded hv hbs
  obtain ⟨Ps, hargs, hfields⟩ := relationshipFields_of hwords
  refine (leads _).parses_of hargs hb.compared fun s vs hs hvs =>
    ⟨o.reread ["relationshipKind", "direction", "targetKind", "targetStatus"] ++ r, fun body => ?_, ?_⟩
  · simp only [fields, hs.args, hfields _ _ vs hvs, hb.optional hs.comparison?,
      Args.finish_nil, pure_bind]
  · have := hb.rewritten ["type", "relationshipKind", "direction", "targetKind", "targetStatus"]
      hall (by decide)
    rwa [Record.reread_text htype] at this

theorem parses_randomChance (htype : text? o "type" = some randomChance.word)
    (h : randomChance.words? o = some ws) :
    (Node.line (randomChance.word :: ws)).Parses (randomChance.Restores o) := by
  simp [words?, Option.bind_eq_some_iff, number?_eq_some] at h
  obtain ⟨hall, n, hn, rfl⟩ := h
  refine (leads _).parses_words (.cons (word_number (isHeld_of_get? hv hn)) .nil) fun s vs hs hvs => ?_
  rcases hvs with _ | ⟨hn', _ | _⟩
  refine ⟨[("chance", .num n.reread)], fun body => ?_, rewritten_reread hall (by decide) ?_⟩
  · simp only [fields, hs.args, Args.number_cons hn'.number?, Args.finish_nil, pure_bind,
      Json.ofNumber_of_isFinite hn'.isFinite]
  · rw [Record.reread_text htype, Record.reread_of_some hn]; rfl

theorem parses_timeElapsed (htype : text? o "type" = some timeElapsed.word)
    (h : timeElapsed.words? o = some ws) :
    (Node.line (timeElapsed.word :: ws)).Parses (timeElapsed.Restores o) := by
  simp [words?, Option.bind_eq_some_iff, number?_eq_some] at h
  obtain ⟨hall, n, hn, since, hsince, rfl⟩ := h
  have hmarked :=
    forall₂_marked (word_name (w := "since") (by decide) (by decide) (by decide)) word_string since
  refine (leads _).parses_words (.cons (word_number (isHeld_of_get? hv hn)) hmarked)
    fun s vs hs hvs => ?_
  rcases hvs with _ | ⟨hn', hvs⟩
  rw [← List.append_nil (markedValues _ _ _)] at hvs
  obtain ⟨us, hus, htext⟩ := Args.markedText_of timeElapsed.word s.span (Args.apart_nil _)
    "a reference point after 'since'" hvs
  cases hus
  refine ⟨("minTicks", .num n.reread) :: optionalText "since" since, fun body => ?_,
    rewritten_reread hall (by decide) ?_⟩
  · simp only [fields, hs.args, Args.number_cons hn'.number?, htext, Args.finish_nil, pure_bind,
      Json.ofNumber_of_isFinite hn'.isFinite]
  · rw [Record.reread_text htype, Record.reread_of_some hn, Record.reread_optionalText hsince,
      Record.reread_nil, List.append_nil]
    rfl

omit hv in
theorem parses_eraMatch (htype : text? o "type" = some eraMatch.word)
    (h : eraMatch.words? o = some ws) :
    (Node.line (eraMatch.word :: ws)).Parses (eraMatch.Restores o) := by
  simp [words?, Option.bind_eq_some_iff, strings?_eq_some] at h
  obtain ⟨hall, eras, ⟨heras, hne⟩, rfl⟩ := h
  refine (leads _).parses_words (forall₂_strings eras) fun s vs hs hvs => ?_
  refine ⟨[("eras", .arr (eras.map .str))], fun body => ?_, rewritten_reread hall (by decide) ?_⟩
  · have hempty : (eras.map Json.str).isEmpty = false := by simpa using hne
    simp only [fields, hs.args, Args.flat_of_says hvs, Value.literals_of_says hvs, hempty,
      Bool.false_eq_true, if_false]
  · rw [Record.reread_text htype, Record.reread_of_some heras]
    simp [Record.reread_nil, Json.reread, Json.rereadItems_eq_map]

theorem parses_prominence (htype : text? o "type" = some prominence.word)
    (h : prominence.words? o = some ws) :
    (Node.line (prominence.word :: ws)).Parses (prominence.Restores o) := by
  simp [words?, Option.bind_eq_some_iff] at h
  obtain ⟨⟨hall, hlen⟩, least, hleast, most, hmost, rfl⟩ := h
  have hmin :=
    forall₂_marked (word_name (w := "min") (by decide) (by decide) (by decide)) word_string least
  have hmax :=
    forall₂_marked (word_name (w := "max") (by decide) (by decide) (by decide)) word_string most
  refine (leads _).parses_words (List.rel_append hmin hmax) fun s vs hs hvs => ?_
  have hapart : Args.Apart "min" (markedValues "max" Value.Says most) := by
    rw [← List.append_nil (markedValues _ _ _)]
    exact Args.apart_markedValues (by decide) _ _ (Args.apart_nil _)
  obtain ⟨us, hus, hleast'⟩ := Args.markedText_of prominence.word s.span hapart "a prominence level" hvs
  rw [← List.append_nil (markedValues _ _ _)] at hus
  obtain ⟨us, hus, hmost'⟩ :=
    Args.markedText_of prominence.word s.span (Args.apart_nil _) "a prominence level" hus
  cases hus
  -- a record with only its type is too short to be written
  have hone : (least.isNone && most.isNone) = false := by
    rw [Bool.eq_false_iff]
    intro hnone
    simp only [Bool.and_eq_true, Option.isNone_iff_eq_none] at hnone
    obtain ⟨rfl, rfl⟩ := hnone
    have hsub : o.keys ⊆ ["type"] := by
      intro key hkey
      have hmem := Record.hasOnly_iff.1 hall key hkey
      rw [optionalText?_eq_some, Option.map_none, Record.get?_eq_none_iff] at hleast hmost
      simp only [List.mem_cons, List.not_mem_nil, or_false] at hmem
      rcases hmem with rfl | rfl | rfl
      · exact List.mem_singleton_self _
      · exact absurd hkey hleast
      · exact absurd hkey hmost
    have := (List.subperm_of_subset (Json.nodup_of_isValid hv) hsub).length_le
    simp only [Record.keys, List.length_map, List.length_singleton] at this
    omega
  refine ⟨optionalText "min" least ++ optionalText "max" most, fun body => ?_,
    rewritten_reread hall (by decide) ?_⟩
  · simp only [fields, hs.args, hleast', hmost', hone, Bool.false_eq_true, if_false,
      Args.finish_nil, pure_bind]
  · rw [Record.reread_text htype, Record.reread_optionalText hleast, Record.reread_optionalText hmost,
      Record.reread_nil, List.append_nil]

omit hv in
theorem parses_entityExists (htype : text? o "type" = some entityExists.word)
    (h : entityExists.words? o = some ws) :
    (Node.line (entityExists.word :: ws)).Parses (entityExists.Restores o) := by
  simp [words?, Option.bind_eq_some_iff] at h
  obtain ⟨hall, entity, hentity, rfl⟩ := h
  refine (leads _).parses_words (.cons (word_reference entity) .nil) fun s vs hs hvs => ?_
  rcases hvs with _ | ⟨he, _ | _⟩
  refine ⟨[textField "entity" entity], fun body => ?_, rewritten_reread hall (by decide) ?_⟩
  · simp only [fields, hs.args, Args.value_cons, requiredReference_eq he, Args.finish_nil, pure_bind]
    rfl
  · rw [Record.reread_text htype, Record.reread_text hentity]; rfl

omit hv in
theorem parses_notSelf (htype : text? o "type" = some notSelf.word) (h : notSelf.words? o = some ws) :
    (Node.line (notSelf.word :: ws)).Parses (notSelf.Restores o) := by
  simp [words?] at h
  obtain ⟨hall, rfl⟩ := h
  refine (leads _).parses_words .nil fun s vs hs hvs =>
    ⟨[], fun body => ?_, rewritten_reread hall (by decide) ?_⟩
  · cases hvs
    simp only [fields, hs.args, Args.finish_nil, pure_bind]
  · rw [Record.reread_text htype]; rfl

theorem parses_line (htype : text? o "type" = some k.word) (h : k.words? o = some ws) :
    (Node.line (k.word :: ws)).Parses (k.Restores o) := by
  cases k with
  | pressure => exact parses_pressure hv htype h
  | cap => exact parses_cap hv htype h
  | entityCount => exact parses_entityCount hv htype h
  | tagExists => exact parses_tag (.inl rfl) htype h
  | lacksTag => exact parses_tag (.inr rfl) htype h
  | relationshipExists => exact parses_relationshipExists htype h
  | relationshipCount => exact parses_relationshipCount hv htype h
  | randomChance => exact parses_randomChance hv htype h
  | timeElapsed => exact parses_timeElapsed hv htype h
  | eraMatch => exact parses_eraMatch htype h
  | prominence => exact parses_prominence hv htype h
  | entityExists => exact parses_entityExists htype h
  | notSelf => exact parses_notSelf htype h
  | and => cases h
  | or => cases h
  | graphPath => cases h
  | generic => cases h

end

end Keyword

theorem Keyword.isSome_words? {o o' : Record} (h : Alike o o') (k : Keyword) :
    (k.words? o').isSome = (k.words? o).isSome := by
  cases k <;> simp [Keyword.words?, Written.hasOnly, h.hasOnly, h.text?, h.optionalText?,
    h.strings?, h.length, relationshipWords?, Option.isSome_bind, any_const, h.isSome_bounds?,
    h.isSome_requiredBounds?, h.isSome_number?,
    apply_ite Option.isSome]

/-- A line of a keyword compiles to a rewritten record. -/
theorem compile_of_restores {k : Keyword} {o : Record} {s : Statement} (h : k.Restores o s)
    (hk : k.isBlock = false) : ∃ o', Rewritten o o' ∧ ∀ body, compile s body = pure (.obj o') := by
  obtain ⟨⟨vs, b, hs⟩, r, hfields, hr⟩ := h
  refine ⟨_, hr, fun body => ?_⟩
  have hfits : k.fits s = true := by
    cases hs <;> simp [Keyword.fits, hk]
  have hgen : k ≠ .generic := by rintro rfl; cases hk
  simp only [compile, hs.plainKeyword?, Option.bind_some, Keyword.ofWord?_word, hfits, Bool.not_true,
    Bool.false_eq_true, if_false, hfields body, pure_bind, hgen]

end Worldbook.Condition
