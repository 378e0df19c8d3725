import Worldbook.Mutation.Compile
import Worldbook.Mutation.Write
import Worldbook.Proofs.Pairs

/-!
# Mutations on one line

Mutations with a keyword, changes of an amount and new relationships are each read back as the
record they were written from. The sign of a change goes into its operator and comes back.
-/

namespace Worldbook.Mutation

open Written CompileM

namespace Keyword

variable {o o' : Record} {k : Keyword} {ws : List String}

theorem ofWord?_word (k : Keyword) : ofWord? k.word = some k := by cases k <;> rfl

theorem leads (k : Keyword) : Leads k.word := by
  cases k <;> exact ⟨by decide, by decide, by decide⟩

/-! ## Words that do not change -/

theorem tagValue?_of_rewritten (h : Rewritten o o') (ht : (Json.obj o).isTame = true) :
    tagValue? o' = tagValue? o :=
  h.inlineValue ht "value" (by decide)

theorem entityAndKind?_of_alike (h : Alike o o') : entityAndKind? o' = entityAndKind? o := by
  simp only [entityAndKind?, h.text?]

theorem direction?_of_alike (h : Alike o o') : direction? o' = direction? o := by
  simp only [direction?, h.optionalText?]

theorem words?_updateRateLimit (o : Record) : updateRateLimit.words? o =
    if hasOnly o ["cooldown"] then
      match (o.get? "cooldown").map Json.number? with
      | none => some []
      | some (some n) => some [number n]
      | some none => none
    else none := by
  rw [words?]
  cases hasOnly o ["cooldown"]
  · rfl
  · rcases o.get? "cooldown" with _ | (_ | _ | _ | _ | _ | _) <;> rfl

theorem words?_of_rewritten (h : Rewritten o o') (ht : (Json.obj o).isTame = true) (k : Keyword) :
    k.words? o' = k.words? o := by
  have ha := h.alike ht
  by_cases hk : k = updateRateLimit
  · rw [hk, words?_updateRateLimit, words?_updateRateLimit, h.get? "cooldown" (by decide),
      Rewritten.map_number? ht, Written.hasOnly, Written.hasOnly, ha.hasOnly]
  · cases k <;> simp [words?, Written.hasOnly, ha.hasOnly, ha.text?, ha.optionalText?,
      tagValue?_of_rewritten h ht, entityAndKind?_of_alike ha, direction?_of_alike ha]
    · exact absurd rfl hk

theorem isSome_words? (h : Alike o o') (k : Keyword) : (k.words? o').isSome = (k.words? o).isSome := by
  have htag : (tagValue? o').isSome = (tagValue? o).isSome := by
    rw [tagValue?, tagValue?]
    rcases h.cases_get? "value" with ⟨hx, hy⟩ | ⟨x, y, hx, hy, ht, hr⟩
    · rw [hx, hy]
    · simp only [hx, hy, Alike.isInline_of_recovers ht hr]
      split <;> rfl
  by_cases hk : k = updateRateLimit
  · rw [hk, words?_updateRateLimit, words?_updateRateLimit, Written.hasOnly, Written.hasOnly, h.hasOnly]
    rcases h.cases_get? "cooldown" with ⟨hx, hy⟩ | ⟨x, y, hx, hy, -, hr⟩
    · rw [hx, hy]
    · rw [hx, hy, Option.map_some, Option.map_some]
      have := Json.isSome_number?_of_recovers hr
      cases hm : x.number? <;> cases hn : y.number? <;> simp_all [apply_ite Option.isSome]
  · cases k <;> simp [words?, Written.hasOnly, h.hasOnly, h.text?, h.optionalText?, htag,
      entityAndKind?_of_alike h, direction?_of_alike h, Option.isSome_bind, any_const,
      apply_ite Option.isSome]
    · exact absurd rfl hk

/-! ## The fields of a line -/

abbrev Restores (k : Keyword) (o : Record) (s : Statement) : Prop :=
  s.comparison? = none ∧
    Worldbook.Restores k.word k.fields (fun r => Rewritten o (textField "type" k.typeName :: r)) s

theorem rewritten_of {r : Record} {keys : List String} (hall : hasOnly o keys = true)
    (hn : ("type" :: keys).Nodup) (htype : text? o "type" = some k.typeName) (h : r = o.reread keys) :
    Rewritten o (textField "type" k.typeName :: r) :=
  rewritten_reread hall hn (by rw [h, Record.reread_text htype])

theorem entity_eq {word : String} {span : Span} {v : Value} {rest : List Value} {s : String}
    (h : v.Cites s) : entity ⟨word, span, v :: rest⟩ = pure (.str s, ⟨word, span, rest⟩) := by
  simp only [entity, Args.value_cons, requiredReference_eq h, pure_bind]

theorem entityAndKind_of (h : entityAndKind? o = some ws) : ∃ Ps, List.Forall₂ Word ws Ps ∧
    ∀ word span Rs vs, Meets (Ps ++ Rs) vs → ∃ us, Meets Rs us ∧
      entityAndKind ⟨word, span, vs⟩ = pure (o.reread ["entity", "relationshipKind"],
        ⟨word, span, us⟩) := by
  simp only [entityAndKind?, Option.bind_eq_bind, Option.bind_eq_some_iff, Option.pure_def,
    Option.some.injEq] at h
  obtain ⟨e, he, kind, hkind, rfl⟩ := h
  refine ⟨_, .cons (word_reference e) (.cons (word_string kind) .nil), fun word span Rs vs hvs => ?_⟩
  rcases hvs with _ | ⟨he', _ | ⟨hkind', hus⟩⟩
  refine ⟨_, hus, ?_⟩
  simp only [entityAndKind, entity_eq he', Args.text_cons hkind'.text?, pure_bind]
  rw [Record.reread_text he, Record.reread_text hkind]
  rfl

theorem direction_of (h : direction? o = some ws) : ∃ Ps, List.Forall₂ Word ws Ps ∧
    (∀ P ∈ Ps.head?, ∀ v, P v → v.Names "direction") ∧
    ∀ word span Rs vs, Meets (Ps ++ Rs) vs → Args.Apart "direction" Rs → ∃ us, Meets Rs us ∧
      direction ⟨word, span, vs⟩ = pure (o.reread ["direction"], ⟨word, span, us⟩) := by
  simp only [direction?, Option.bind_eq_bind, Option.bind_eq_some_iff, Option.pure_def,
    Option.some.injEq] at h
  obtain ⟨t, ht, rfl⟩ := h
  refine ⟨_, forall₂_marked (word_name (by decide) (by decide) (by decide)) word_string t, ?_,
    fun word span Rs vs hvs hap => ?_⟩
  · cases t with
    | none => exact nofun
    | some s =>
      rintro P ⟨⟩ v hP
      exact hP
  · obtain ⟨us, hus, htext⟩ := Args.markedText_of word span hap "a direction" hvs
    refine ⟨us, hus, ?_⟩
    simp only [direction, htext, pure_bind, Record.reread_optionalText ht, Record.reread_nil,
      List.append_nil]

section
variable (htype : text? o "type" = some k.typeName)
include htype

theorem parses_changeStatus (hk : k = changeStatus) (h : k.words? o = some ws) :
    (Node.line (k.word :: ws)).Parses (k.Restores o) := by
  subst hk
  simp [words?, Option.bind_eq_some_iff] at h
  obtain ⟨hall, e, he, status, hstatus, rfl⟩ := h
  refine (leads _).parses_plain (.cons (word_reference e) (.cons (word_string status) .nil))
    fun s vs hs hvs => ?_
  rcases hvs with _ | ⟨he', _ | ⟨hstatus', _ | _⟩⟩
  refine ⟨[textField "entity" e, textField "newStatus" status], fun body => ?_,
    rewritten_of hall (by decide) htype ?_⟩
  · simp only [fields, hs.args, entity_eq he', Args.text_cons hstatus'.text?,
      Args.finish_nil, pure_bind]
    rfl
  · rw [Record.reread_text he, Record.reread_text hstatus, Record.reread_nil]

theorem parses_removeTag (hk : k = removeTag) (h : k.words? o = some ws) :
    (Node.line (k.word :: ws)).Parses (k.Restores o) := by
  subst hk
  simp [words?, Option.bind_eq_some_iff] at h
  obtain ⟨hall, e, he, tag, htag, rfl⟩ := h
  refine (leads _).parses_plain (.cons (word_reference e) (.cons (word_string tag) .nil))
    fun s vs hs hvs => ?_
  rcases hvs with _ | ⟨he', _ | ⟨htag', _ | _⟩⟩
  refine ⟨[textField "entity" e, textField "tag" tag], fun body => ?_,
    rewritten_of hall (by decide) htype ?_⟩
  · simp only [fields, hs.args, entity_eq he', Args.text_cons htag'.text?, Args.finish_nil, pure_bind]
    rfl
  · rw [Record.reread_text he, Record.reread_text htag, Record.reread_nil]

omit htype in
/-- The value of a tag is never taken for the word `from`, which may follow it. -/
theorem tagValue_of (hv : (Json.obj o).isValid = true) (h : tagValue? o = some ws) :
    ∃ Ps, List.Forall₂ Word ws Ps ∧
    ∀ word span Rs vs, Meets (Ps ++ Rs) vs → (∀ R ∈ Rs.head?, ∀ v, R v → v.Names "from") →
    ∃ us, Meets Rs us ∧
      tagValue ⟨word, span, vs⟩ = (o.reread ["value"], ⟨word, span, us⟩) := by
  rw [tagValue?] at h
  cases hx : o.get? "value" with
  | none =>
    rw [hx] at h
    cases h
    refine ⟨[], .nil, fun word span Rs vs hvs hfrom => ⟨vs, hvs, ?_⟩⟩
    rw [Record.reread_of_none hx, Record.reread_nil]
    cases hvs with
    | nil => rfl
    | cons hv _ => simp [tagValue, (hfrom _ rfl _ hv).isWord]
  | some x =>
    simp only [hx, Option.ite_none_right_eq_some, Option.some.injEq] at h
    obtain ⟨-, rfl⟩ := h
    refine ⟨_, .cons (word_value (isValid_of_get? hv hx)) .nil, fun word span Rs vs hvs _ => ?_⟩
    rcases hvs with _ | ⟨hx', hus⟩
    refine ⟨_, hus, ?_⟩
    simp only [tagValue, hx'.not_isWord (w := "from") (by decide), Bool.false_eq_true,
      if_false, hx'.literal, Record.reread_of_some hx, Record.reread_nil]

theorem parses_setTag (hv : (Json.obj o).isValid = true) (hk : k = setTag) (h : k.words? o = some ws) :
    (Node.line (k.word :: ws)).Parses (k.Restores o) := by
  subst hk
  simp [words?, Option.bind_eq_some_iff] at h
  obtain ⟨hall, e, he, tag, htag, args, hargs, source, hsource, rfl⟩ := h
  obtain ⟨Ps, hPs, hread⟩ := tagValue_of hv hargs
  have hfrom :=
    forall₂_marked (word_name (w := "from") (by decide) (by decide) (by decide)) word_reference source
  refine (leads _).parses_plain
    (.cons (word_reference e) (.cons (word_string tag) (List.rel_append hPs hfrom)))
    fun s vs hs hvs => ?_
  rcases hvs with _ | ⟨he', _ | ⟨htag', hvs⟩⟩
  have hhead : ∀ R ∈ (markedValues "from" Value.Cites source).head?, ∀ v, R v → v.Names "from" := by
    cases source with
    | none => exact nofun
    | some s =>
      rintro R ⟨⟩ v hR
      exact hR
  obtain ⟨us, hus, hvalue⟩ := hread setTag.word s.span _ _ hvs hhead
  rw [← List.append_nil (markedValues _ _ _)] at hus
  obtain ⟨v, us, hv', hus, hsource'⟩ := Args.markedValue_of setTag.word s.span (Args.apart_nil _)
    "an entity after 'from'" hus
  cases hus
  refine ⟨[textField "entity" e, textField "tag" tag] ++ o.reread ["value"] ++
    optionalText "valueFrom" source, fun body => ?_, rewritten_of hall (by decide) htype ?_⟩
  · simp only [fields, hs.args, entity_eq he', Args.text_cons htag'.text?, hvalue, hsource',
      optionalReference_eq hv', Args.finish_nil, pure_bind, liftM_pure]
    rfl
  · rw [Record.reread_text he, Record.reread_text htag, Record.reread_cons "value" ["valueFrom"],
      Record.reread_optionalText hsource, Record.reread_nil, List.append_nil]
    rfl

theorem parses_archiveRelationship (hk : k = archiveRelationship) (h : k.words? o = some ws) :
    (Node.line (k.word :: ws)).Parses (k.Restores o) := by
  subst hk
  simp [words?, Option.bind_eq_some_iff] at h
  obtain ⟨hall, subject, hsubject, partner, hpartner, dir, hdir, rfl⟩ := h
  obtain ⟨Ps, hPs, hread⟩ := entityAndKind_of hsubject
  obtain ⟨Rs, hRs, hhead, hread'⟩ := direction_of hdir
  have hwith :=
    forall₂_marked (word_name (w := "with") (by decide) (by decide) (by decide)) word_reference partner
  refine (leads _).parses_plain (List.rel_append hPs (List.rel_append hwith hRs)) fun s vs hs hvs => ?_
  obtain ⟨us, hus, hsubject'⟩ := hread archiveRelationship.word s.span _ _ hvs
  have hapart : Args.Apart "with" Rs := by
    intro R hR v hv
    rw [(hhead R hR v hv).isWord]
    rfl
  obtain ⟨v, us, hv, hus, hpartner'⟩ := Args.markedValue_of archiveRelationship.word s.span hapart
    "an entity after 'with'" hus
  obtain ⟨us, hus, hdir'⟩ :=
    hread' archiveRelationship.word s.span [] us (by rwa [List.append_nil]) (Args.apart_nil _)
  cases hus
  refine ⟨o.reread ["entity", "relationshipKind"] ++ optionalText "with" partner ++
    o.reread ["direction"], fun body => ?_, rewritten_of hall (by decide) htype ?_⟩
  · simp only [fields, hs.args, hsubject', hpartner', optionalReference_eq hv, hdir',
      Args.finish_nil, pure_bind, liftM_pure]
  · rw [show ["entity", "relationshipKind", "with", "direction"] = ["entity", "relationshipKind"] ++
      ["with", "direction"]
        from rfl, Record.reread_append, Record.reread_optionalText hpartner, List.append_assoc]

theorem parses_archiveAll (hk : k = archiveAllRelationships) (h : k.words? o = some ws) :
    (Node.line (k.word :: ws)).Parses (k.Restores o) := by
  subst hk
  simp [words?, Option.bind_eq_some_iff] at h
  obtain ⟨hall, subject, hsubject, dir, hdir, rfl⟩ := h
  obtain ⟨Ps, hPs, hread⟩ := entityAndKind_of hsubject
  obtain ⟨Rs, hRs, -, hread'⟩ := direction_of hdir
  refine (leads _).parses_plain (List.rel_append hPs hRs) fun s vs hs hvs => ?_
  obtain ⟨us, hus, hsubject'⟩ := hread archiveAllRelationships.word s.span _ _ hvs
  obtain ⟨us, hus, hdir'⟩ := hread' archiveAllRelationships.word s.span [] us (by rwa [List.append_nil])
    (Args.apart_nil _)
  cases hus
  refine ⟨o.reread ["entity", "relationshipKind"] ++ o.reread ["direction"], fun body => ?_,
    rewritten_of hall (by decide) htype (Record.reread_append _ _).symm⟩
  simp only [fields, hs.args, hsubject', hdir', Args.finish_nil, pure_bind]

theorem parses_transferRelationship (hk : k = transferRelationship) (h : k.words? o = some ws) :
    (Node.line (k.word :: ws)).Parses (k.Restores o) := by
  subst hk
  simp [words?, Option.bind_eq_some_iff] at h
  obtain ⟨hall, subject, hsubject, giver, hgiver, taker, htaker, rfl⟩ := h
  obtain ⟨Ps, hPs, hread⟩ := entityAndKind_of hsubject
  refine (leads _).parses_plain
    (List.rel_append hPs (.cons (word_name (by decide) (by decide) (by decide))
    (.cons (word_reference giver) (.cons (word_name (by decide) (by decide) (by decide))
      (.cons (word_reference taker) .nil))))) fun s vs hs hvs => ?_
  obtain ⟨us, hus, hsubject'⟩ := hread transferRelationship.word s.span _ _ hvs
  rcases hus with _ | ⟨hfrom, _ | ⟨hgiver', _ | ⟨hto, _ | ⟨htaker', _ | _⟩⟩⟩⟩
  refine ⟨o.reread ["entity", "relationshipKind"] ++ [textField "from" giver, textField "to" taker],
    fun body => ?_, rewritten_of hall (by decide) htype ?_⟩
  · simp only [fields, hs.args, hsubject', transferEnd, Args.marker_cons hfrom,
      Args.marker_cons hto, if_true, Args.value_cons, requiredReference_eq hgiver',
      requiredReference_eq htaker', Args.finish_nil, pure_bind]
    rfl
  · rw [show ["entity", "relationshipKind", "from", "to"] = ["entity", "relationshipKind"] ++
      ["from", "to"] from rfl, Record.reread_append, Record.reread_text hgiver,
      Record.reread_text htaker, Record.reread_nil]

theorem parses_updateRateLimit (hv : (Json.obj o).isValid = true) (hk : k = updateRateLimit)
    (h : k.words? o = some ws) : (Node.line (k.word :: ws)).Parses (k.Restores o) := by
  subst hk
  rw [words?_updateRateLimit, Option.ite_none_right_eq_some] at h
  obtain ⟨hall, h⟩ := h
  cases hx : o.get? "cooldown" with
  | none =>
    rw [hx] at h
    cases h
    refine (leads _).parses_plain .nil fun s vs hs hvs =>
      ⟨[], fun body => ?_, rewritten_of hall (by decide) htype ?_⟩
    · cases hvs
      simp only [fields, hs.args, List.isEmpty_nil, if_true]
    · rw [Record.reread_of_none hx, Record.reread_nil]
  | some x =>
    rw [hx] at h
    cases x with
    | num n =>
      cases h
      refine (leads _).parses_plain (.cons (word_number (isHeld_of_get? hv hx)) .nil)
        fun s vs hs hvs => ?_
      rcases hvs with _ | ⟨hn, _ | _⟩
      refine ⟨[("cooldown", .num n.reread)], fun body => ?_, rewritten_of hall (by decide) htype ?_⟩
      · simp only [fields, hs.args, List.isEmpty_cons, Bool.false_eq_true, if_false,
          Args.number_cons hn.number?, Args.finish_nil, pure_bind,
          Json.ofNumber_of_isFinite hn.isFinite]
      · rw [Record.reread_of_some hx, Record.reread_nil]
        rfl
    | _ => cases h

theorem parses_line (hv : (Json.obj o).isValid = true) (h : k.words? o = some ws) :
    (Node.line (k.word :: ws)).Parses (k.Restores o) := by
  cases k with
  | changeStatus => exact parses_changeStatus htype rfl h
  | setTag => exact parses_setTag htype hv rfl h
  | removeTag => exact parses_removeTag htype rfl h
  | archiveRelationship => exact parses_archiveRelationship htype rfl h
  | archiveAllRelationships => exact parses_archiveAll htype rfl h
  | transferRelationship => exact parses_transferRelationship htype rfl h
  | updateRateLimit => exact parses_updateRateLimit htype hv rfl h
  | createRelationship => cases h
  | modifyPressure => cases h
  | adjustProminence => cases h
  | forEachRelated => cases h
  | conditional => cases h
  | generic => cases h

end

end Keyword

/-! ## Changes of an amount -/

theorem negate_negate (x : Binary64) : x.negate.negate = x := by
  cases x <;> simp [Binary64.negate]

/-- The amount of a change and its operator give the number back. -/
theorem change_of {m : Number} {ws : List String} (hm : Json.isHeld (.num m) = true)
    (h : change? (.num m) = some ws) : ∃ (c : Change) (n : Number), ws = [c.text, number n] ∧
      Json.isHeld (.num n) = true ∧
      (match c with | .add => n.reread | .subtract => n.reread.negate) = m.reread := by
  cases m with
  | int i =>
    rw [change?] at h
    split_ifs at h with h0 h1
    · cases h
      exact ⟨.add, .int i, rfl, hm, rfl⟩
    · cases h
      have hback : Number.inInt64 i = true := by
        simp only [Number.inInt64, Bool.and_eq_true, decide_eq_true_eq] at h1 ⊢
        omega
      refine ⟨.subtract, .int (-i), rfl, ?_, ?_⟩
      · simp only [Json.isHeld, Number.inInt64, Bool.and_eq_true, decide_eq_true_eq] at h1 ⊢
        omega
      · simp only [Number.reread, h1, if_true, Number.negate, neg_neg, hback]
  | float x =>
    rw [change?] at h
    split_ifs at h with h0
    · cases h
      refine ⟨.subtract, .float x.negate, rfl, ?_, ?_⟩
      · cases x
        · rfl
        · cases hm
      · simp only [Number.reread, Number.negate, negate_negate]
    · cases h
      exact ⟨.add, .float x, rfl, hm, rfl⟩

theorem exists_num_of_change? {x : Json} {ws : List String} (h : change? x = some ws) :
    ∃ m, x = .num m := by
  cases x with
  | num m => exact ⟨m, rfl⟩
  | _ => cases h

theorem delta_of_rewritten {o o' : Record} (h : Rewritten o o') (ht : (Json.obj o).isTame = true) :
    (o'.get? "delta").bind change? = (o.get? "delta").bind change? := by
  have hchange : ∀ v : Option Json, v.bind change? = (v.bind Json.number?).bind fun n =>
    change? (.num n) := by
    rintro (_ | _ | _ | _ | _ | _ | _) <;> rfl
  rw [hchange, hchange, h.bind_number? ht "delta" (by decide)]

theorem isSome_delta {o o' : Record} (h : Alike o o') :
    ((o'.get? "delta").bind change?).isSome = ((o.get? "delta").bind change?).isSome := by
  rcases h.cases_get? "delta" with ⟨hx, hy⟩ | ⟨x, y, hx, hy, ht, hr⟩
  · rw [hx, hy]
  · rw [hx, hy, Option.bind_some, Option.bind_some]
    cases x with
    | num m =>
      obtain ⟨n, rfl, hs⟩ := Json.recovers_num.1 hr
      rw [Json.reread_of_narrow (Json.every_self ((Json.isTame_iff _).1 ht).2.1)] at hs
      cases m with
      | int i =>
        cases n with
        | int j =>
          simp only [Number.same, beq_iff_eq] at hs
          rw [hs]
        | float y => cases hs
      | float x =>
        cases n with
        | int j => cases hs
        | float y =>
          simp only [change?]
          split <;> split <;> rfl
    | _ => cases y <;> first | rfl | cases hr

theorem parses_mutate (k : Keyword) {o : Record} {target id : String} {P : Value → Prop} {n : Node}
    (subject : String × Json) (hv : (Json.obj o).isValid = true)
    (htarget : Word target (·.Names target)) (hid : Word id P)
    (hsubject : ∀ v c amount, P v → ofMutate k v c amount =
      pure [subject, ("delta", .ofNumber (match c with | .add => amount | .subtract => amount.negate))])
    (h : mutate? target id o = some n) :
    n.Parses fun s => ∃ v c amount span, s = .mutate target v c amount span ∧
      ∃ m, o.get? "delta" = some (.num m) ∧
      ofMutate k v c amount = pure [subject, ("delta", .num m.reread)] := by
  simp only [mutate?, Option.bind_eq_bind, Option.bind_eq_some_iff, Option.pure_def,
    Option.some.injEq] at h
  obtain ⟨ws, ⟨x, hx, hchange⟩, rfl⟩ := h
  obtain ⟨m, rfl⟩ := exists_num_of_change? hchange
  obtain ⟨c, amount, rfl, hheld, hback⟩ := change_of (isHeld_of_get? hv hx) hchange
  refine (Node.parses_mutate htarget hid c hheld).imp ?_
  rintro _ ⟨v, span, rfl, hP⟩
  refine ⟨v, c, amount.reread, span, rfl, m, hx, ?_⟩
  rw [hsubject v c _ hP, hback,
    Json.ofNumber_of_isFinite (Number.isFinite_reread (isHeld_of_get? hv hx))]

/-! ## Statements -/

theorem compile_of_restores {k : Keyword} {o : Record} {s : Statement} (h : k.Restores o s)
    (hk : k.isBlock = false) : ∃ o', Rewritten o o' ∧ ∀ body, compile s body = pure (.obj o') := by
  obtain ⟨hplain, ⟨vs, b, hs⟩, r, hfields, hr⟩ := h
  refine ⟨_, hr, fun body => ?_⟩
  have hgen : k ≠ .generic := by rintro rfl; cases hk
  have hof : Keyword.ofStatement? s = some k := by
    cases hs with
    | predicate => cases hplain
    | _ => exact Keyword.ofWord?_word k
  cases hs with
  | predicate => cases hplain
  | _ =>
    simp only [compile, hof, Keyword.fits, hk, Bool.not_false, Bool.not_true,
      Bool.false_eq_true, if_false, hfields body, pure_bind, hgen]

theorem compile_mutate {k : Keyword} {target : String} {v : Value} {c : Change} {amount : Number}
    {span : Span} {r : Record} (hk : Keyword.ofStatement? (.mutate target v c amount span) = some k)
    (h : ofMutate k v c amount = pure r) (body : Nested) :
    compile (.mutate target v c amount span) body = pure (.obj (textField "type" k.typeName :: r)) := by
  simp only [compile, hk, Keyword.fits, Bool.not_true, Bool.false_eq_true, if_false, h, pure_bind]

theorem gives_compile_rel {s : Statement} {label : Option Value} {kind source target : Value}
    {vs : List Value} {span : Span} {r : Record} (hs : s = .rel "rel" label kind source target vs span)
    (h : Gives (s.relationship true) (· = r))
    (hn : (Record.keys (textField "type" "create_relationship" :: r)).Nodup) (body : Nested) :
    Gives (compile s body) (· = .obj (textField "type" "create_relationship" :: r)) := by
  subst hs
  have hk : Keyword.ofStatement? (.rel "rel" label kind source target vs span) =
    some .createRelationship := by
    simp [Keyword.ofStatement?]
  simp only [compile, hk, Keyword.fits, Bool.not_true, Bool.false_eq_true, if_false]
  refine h.bind ?_
  rintro _ rfl
  have := Record.setAll_of_nodup [textField "type" "create_relationship"] _ (by simpa using hn)
  exact gives_pure (congrArg Json.obj this)

theorem Keyword.ofType?_typeName (k : Keyword) :
    Keyword.ofType? k.typeName = some k := by cases k <;> rfl

theorem write?_eq_some {o : Record} {forms : String → Forms} {n : Node} : write? o forms = some n ↔
    ∃ k : Keyword, text? o "type" = some k.typeName ∧ k.statement? o forms = some n :=
  typed_eq_some (find?_name_iff Keyword.ofType?_typeName)

def Keyword.nests : Keyword → Bool
  | forEachRelated | conditional => true
  | _ => false

/-- The statement of a keyword that nests nothing depends on the record only. -/
theorem statement?_of_not_nests {k : Keyword} (hk : k.nests = false) (o : Record)
    (forms forms' : String → Forms) : k.statement? o forms = k.statement? o forms' := by
  cases k <;> first | rfl | cases hk

def Keyword.Returns (k : Keyword) (o : Record) (forms : String → Forms) (n : Node) : Prop :=
  n.Parses fun s => ∀ body, Gives (compile s body) fun y => ∃ o', y = .obj o' ∧ Rewritten o o' ∧
    ((Json.obj o).isTame = true → k.statement? o' forms = some n)

section
variable {k : Keyword} {o : Record} {forms : String → Forms} {n : Node}
  (hv : (Json.obj o).isValid = true) (htype : text? o "type" = some k.typeName)
  (h : k.statement? o forms = some n)
include hv htype h

theorem returns_line (hk : k.isBlock = false)
    (hline : ∀ r forms, k.statement? r forms = (k.words? r).bind fun ws =>
      some (.line (k.word :: ws))) :
    k.Returns o forms n := by
  rw [hline, Option.bind_eq_some_iff] at h
  obtain ⟨ws, hws, hn⟩ := h
  cases hn
  refine (Keyword.parses_line htype hv hws).imp fun s hs body => ?_
  obtain ⟨o', hr, hcompile⟩ := compile_of_restores hs hk
  rw [hcompile body]
  refine gives_pure ⟨o', rfl, hr, fun ht => ?_⟩
  rw [hline, Keyword.words?_of_rewritten hr ht, hws, Option.bind_some]

theorem returns_relationship (hk : k = .createRelationship) : k.Returns o forms n := by
  subst hk
  have hskip : ∀ key ∈ ["type"], key ∉ endKeys o := by
    rw [endKeys, strengthKey]
    cases number? o "strength" <;> simp
  have hrecord : o.reread ["type"] ++ restoredRelationship o ["type"] =
      textField "type" "create_relationship" :: restoredRelationship o ["type"] := by
    rw [Record.reread_text htype, Record.reread_nil]
    rfl
  have hr := rewritten_relationship hv (List.nodup_singleton _) hskip
  refine (parses_relationship (by decide) hv h).imp ?_
  rintro s ⟨⟨label, kind, source, target, vs, span, hs⟩, hread⟩ body
  refine (gives_compile_rel hs (hread true) (hrecord ▸ hr.nodup) body).imp ?_
  rintro _ rfl
  refine ⟨_, rfl, hrecord ▸ hr, fun ht => ?_⟩
  have := relationship?_restored ht (List.nodup_singleton _) hskip "rel"
  rw [hrecord] at this
  exact this.trans h

/-- The two keywords that change an amount differ in what is changed and how it is written. -/
theorem returns_mutate (target key : String) {write : String → String} {P : String → Value → Prop}
    (hstatement : ∀ r forms, k.statement? r forms =
      if hasOnly r [key, "delta"] then (text? r key).bind fun id =>
      mutate? target (write id) r else none)
    (hkeys : ["type", key, "delta"].Nodup) (htarget : Word target (·.Names target))
    (hid : ∀ id, Word (write id) (P id))
    (hsubject : ∀ id v c amount, P id v → ofMutate k v c amount = pure [textField key id,
      ("delta", .ofNumber (match c with | .add => amount | .subtract => amount.negate))])
    (hk : ∀ v c amount span, Keyword.ofStatement? (.mutate target v c amount span) = some k) :
    k.Returns o forms n := by
  rw [hstatement, Option.ite_none_right_eq_some, Option.bind_eq_some_iff] at h
  obtain ⟨hall, id, hid', hmutate⟩ := h
  refine (parses_mutate k (textField key id) hv htarget (hid id) (hsubject id) hmutate).imp ?_
  rintro _ ⟨v, c, amount, span, rfl, m, hm, hof⟩ body
  rw [compile_mutate (hk ..) hof]
  have hr : Rewritten o (textField "type" k.typeName :: [textField key id, ("delta", .num m.reread)]) :=
    Keyword.rewritten_of hall hkeys htype
      (by rw [Record.reread_text hid', Record.reread_of_some hm]; rfl)
  refine gives_pure ⟨_, rfl, hr, fun ht => ?_⟩
  have ha := hr.alike ht
  rw [hstatement, Written.hasOnly, ha.hasOnly, ha.text?, hid', Option.bind_some]
  simp only [mutate?, delta_of_rewritten hr ht]
  rw [Written.hasOnly] at hall
  rw [if_pos hall]
  exact hmutate

theorem returns_statement (hk : k.nests = false) : k.Returns o forms n := by
  cases k with
  | createRelationship => exact returns_relationship hv htype h rfl
  | modifyPressure =>
    refine returns_mutate hv htype h "pressure" "pressureId" ?_ (by decide)
      (word_name (by decide) (by decide) (by decide)) word_string ?_ fun _ _ _ _ => rfl
    · intro r forms
      cases hr : hasOnly r ["pressureId", "delta"] <;> simp [Keyword.statement?, hr]
    · intro id v c amount hP
      cases c <;> simp only [ofMutate, hP.text?, pure_bind]
  | adjustProminence =>
    refine returns_mutate hv htype h "prominence" "entity" ?_ (by decide)
      (word_name (by decide) (by decide) (by decide)) word_reference ?_ fun _ _ _ _ => rfl
    · intro r forms
      cases hr : hasOnly r ["entity", "delta"] <;> simp [Keyword.statement?, hr]
    · intro id v c amount hP
      simp only [ofMutate, requiredReference_eq hP, pure_bind]
      cases c <;> rfl
  | forEachRelated => cases hk
  | conditional => cases hk
  | generic => cases h
  | _ => exact returns_line hv htype h rfl fun _ _ => rfl

end

/-- Records that recover each other are both written by the keyword, or neither is. -/
theorem isSome_statement? {k : Keyword} {o o' : Record} (h : Alike o o') (hk : k.nests = false)
    (forms forms' : String → Forms) :
    (k.statement? o' forms').isSome = (k.statement? o forms).isSome := by
  have hdelta : ∀ target id : String, (mutate? target id o').isSome = (mutate? target id o).isSome := by
    intro target id
    have := isSome_delta h
    rw [Option.isSome_bind, Option.isSome_bind] at this
    simp [mutate?, Option.isSome_bind, this]
  cases k with
  | createRelationship => exact h.isSome_relationship? "rel" ["type"]
  | modifyPressure | adjustProminence =>
    simp [Keyword.statement?, Written.hasOnly, h.hasOnly, h.text?, Option.isSome_bind, hdelta,
      apply_ite Option.isSome]
  | forEachRelated => cases hk
  | conditional => cases hk
  | generic => rfl
  | _ => simp [Keyword.statement?, Option.isSome_bind, Keyword.isSome_words? h]

end Worldbook.Mutation
