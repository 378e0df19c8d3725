import Worldbook.Proofs.Languages

/-!
# Selections and variables

The fields of a selection have statements of their own, or are plain with a quoted key. An empty
list of limits has no statement at all, so it is the one field that can be lost. A variable is a
selection with a flag; variables are written after those they mention.
-/

namespace Worldbook.Selector

open Written CompileM

/-! ## Fields of one word and one value -/

structure Paired (key : String) (x : Json) (w v : String) (P : Value → Prop) : Prop where
  leads : Leads w
  word : Word v P
  isKey : w.toList.all Value.isKeyChar = true
  notRequired : w ≠ "required"
  field : ∀ value, P value → ∀ span (r : Record), key ∉ r.keys →
    field w [] value span r = pure (r ++ [(key, x.reread)])

theorem paired_pick (s : String) : Paired "pickStrategy" (.str s) "pick" (string s) (Value.Says s) where
  leads := ⟨by decide, by decide, by decide⟩
  word := word_string s
  isKey := by decide
  notRequired := by decide
  field value hv span r hr := by
    have hargs : Args.of (.field "pick" false [] value span) = ⟨"pick", span, [value]⟩ := rfl
    have hpick : pick (.field "pick" false [] value span) r =
      pure (r ++ [("pickStrategy", .str s)]) := by
      simp only [pick, hargs, Args.text_cons hv.text?, Args.finish_nil, setField_eq hr,
        pure_bind, liftM_pure]
    simp only [Selector.field, decide_true, Bool.true_or, if_true, hpick]
    rfl

theorem paired_max {n : Number} (hn : Json.isHeld (.num n) = true) :
    Paired "maxResults" (.num n) "max" (number n) (·.Spells (.num n)) where
  leads := ⟨by decide, by decide, by decide⟩
  word := word_number hn
  isKey := by decide
  notRequired := by decide
  field value hv span r hr := by
    have hargs : Args.of (.field "max" false [] value span) = ⟨"max", span, [value]⟩ := rfl
    have hmost : most (.field "max" false [] value span) r =
      pure (r ++ [("maxResults", .num n.reread)]) := by
      simp only [most, hargs, Args.number_cons hv.number?, Args.finish_nil, setField_eq hr,
        pure_bind, liftM_pure, Json.ofNumber_of_isFinite hv.isFinite]
    simp [Selector.field, hmost]
    rfl

theorem paired_name {key : String} (hk : key ∈ ["kind", "subtype", "status"]) (s : String) :
    Paired key (.str s) key (string s) (Value.Says s) := by
  simp only [List.mem_cons, List.not_mem_nil, or_false] at hk
  have hsingle : ∀ value plural span (r : Record), Value.Says s value → key ∉ r.keys →
      single key plural value span r = pure (r ++ [(key, .str s)]) := by
    intro value plural span r hv hr
    obtain ⟨_, rfl | rfl⟩ := hv.cases_str <;> simp only [single, Value.text?, setField_eq hr]
  constructor
  case leads => rcases hk with rfl | rfl | rfl <;> exact ⟨by decide, by decide, by decide⟩
  case word => exact word_string s
  case isKey => rcases hk with rfl | rfl | rfl <;> decide
  case notRequired => rcases hk with rfl | rfl | rfl <;> decide
  case field =>
    intro value hv span r hr
    rcases hk with rfl | rfl | rfl <;> exact hsingle value _ span r hv hr

theorem paired_names {key : String} (hk : key ∈ ["kinds", "subtypes", "statuses"]) {xs : List Json}
    (hx : (Json.arr xs).isValid = true) :
    Paired key (.arr xs) key (value (.arr xs)) (·.Spells (.arr xs)) := by
  simp only [List.mem_cons, List.not_mem_nil, or_false] at hk
  constructor
  case leads => rcases hk with rfl | rfl | rfl <;> exact ⟨by decide, by decide, by decide⟩
  case word => exact word_value hx
  case isKey => rcases hk with rfl | rfl | rfl <;> decide
  case notRequired => rcases hk with rfl | rfl | rfl <;> decide
  case field =>
    intro v hv span r hr
    obtain ⟨items, span', rfl, hitems⟩ := hv.array
    have hset : setField key (.arr (Value.literals (items ++ []))) span r =
      pure (r ++ [(key, (Json.arr xs).reread)]) := by
      rw [setField_eq hr, List.append_nil, hitems, Json.reread, Json.rereadItems_eq_map]
    rcases hk with rfl | rfl | rfl <;> exact hset

theorem exists_paired {key : String} {x : Json} (hx : x.isValid = true) {ws : List String}
    (h : pair? key x = some ws) : ∃ w v P, ws = [w, v] ∧ Paired key x w v P := by
  cases x with
  | str s =>
    rw [pair?] at h
    split at h
    · next hk =>
      subst hk
      cases h
      exact ⟨_, _, _, rfl, paired_pick s⟩
    · split at h
      · next hk =>
        cases h
        exact ⟨_, _, _, rfl, paired_name (by simpa using hk) s⟩
      · cases h
  | arr xs =>
    rw [pair?] at h
    split at h
    · next hk =>
      cases h
      rw [Bool.and_eq_true] at hk
      exact ⟨_, _, _, rfl, paired_names (by simpa using hk.1) hx⟩
    · cases h
  | num n =>
    rw [pair?] at h
    split at h
    · next hk =>
      subst hk
      cases h
      exact ⟨_, _, _, rfl, paired_max (Json.every_self hx)⟩
    · cases h
  | _ => cases h

/-! ## Fields of a selection -/

/-- The field has no statement: it is an empty list of limits. -/
def isLost (m : String × Json) : Bool :=
  m.1 == "saturationLimits" && match m.2 with
    | .arr [] => true
    | _ => false

theorem isLost_iff {m : String × Json} :
    isLost m = true ↔ m.1 = "saturationLimits" ∧ m.2 = .arr [] := by
  obtain ⟨key, x⟩ := m
  rw [isLost, Bool.and_eq_true, beq_iff_eq]
  refine and_congr_right fun _ => ?_
  cases x with
  | arr xs => cases xs <;> simp
  | _ => simp

/-- The statements of a field are read as the field behind those in front of
it, unless it is lost. -/
def FieldSelects (key : String) (x : Json) : Prop :=
  ∀ ns, Json.selectionField? key x = some ns → ParsesAll ns fun ss => ∀ r : Record, key ∉ r.keys →
    Yields (compile (Statement.children ss) r) fun r' => (isLost (key, x) = true ∧ r' = r) ∨
      (isLost (key, x) = false ∧ ∃ y, r' = r ++ [(key, y)] ∧ Returns (Json.selectionField? key) x y)

theorem exists_field_of_one {k : String} {v : Value} {s : Statement} (h : s.IsLine k [v] none) :
    ∃ span, s = .field k false [] v span := by
  generalize hvs : [v] = vs at h
  cases h with
  | bare => cases hvs
  | field labels value span =>
    cases labels with
    | nil =>
      cases hvs
      exact ⟨span, rfl⟩
    | cons label labels => simp at hvs

theorem pair?_reread {key : String} {x : Json} (ht : x.isTame = true) :
    pair? key x.reread = pair? key x := by
  have hkin : Json.Kin x x.reread := ⟨ht, Json.recovers_reread (Json.isValid_of_isTame ht)⟩
  have hvalue := value_reread ht
  cases x with
  | arr xs =>
    obtain ⟨ys, hys, hr⟩ := hkin.items
    have hall : (ys.all fun v => v.string?.isSome) = xs.all fun v => v.string?.isSome :=
      forall₂_all (fun _ _ h => by rw [Json.string?_of_recovers h.recovers]) hr
    rw [hys] at hvalue ⊢
    simp only [pair?, hvalue, hall]
  | num n =>
    rw [Json.reread] at hvalue ⊢
    have hnumber : number n.reread = number n := hvalue
    simp only [pair?, hnumber]
  | obj members =>
    obtain ⟨_, hr⟩ := Json.exists_reread_obj members
    rw [hr]
    rfl
  | _ => rfl

theorem selectionField?_of_pair {key : String} {x : Json} {ws : List String}
    (h : pair? key x = some ws) : Json.selectionField? key x = some [.line ws] := by
  simp only [Json.selectionField?, field?, h]

theorem not_isLost_of_pair {key : String} {x : Json} {ws : List String} (h : pair? key x = some ws) :
    isLost (key, x) = false := by
  rw [Bool.eq_false_iff]
  intro hlost
  obtain ⟨rfl, rfl⟩ := isLost_iff.1 hlost
  cases h

theorem selects_pair {key : String} {x : Json} (hx : x.isValid = true) {ws : List String}
    (h : pair? key x = some ws) : FieldSelects key x := by
  intro ns hns
  rw [selectionField?_of_pair h] at hns
  cases hns
  obtain ⟨w, v, P, rfl, hp⟩ := exists_paired hx h
  refine (Node.parses_words hp.leads.isName hp.leads.notSpecial hp.leads.notShaped
    (.cons hp.word .nil)).imp ?_
  rintro s ⟨vs, hs, hvs⟩ r hr
  rcases hvs with _ | ⟨hv, _ | _⟩
  obtain ⟨span, rfl⟩ := exists_field_of_one hs
  rw [Statement.children_cons, Statement.children_nil, compile]
  refine yields_thread_cons (P := (· = r ++ [(key, x.reread)])) ?_ ?_
  · rw [part, hp.field _ hv span r hr]
    exact yields_pure rfl
  · rintro _ rfl
    refine yields_thread_nil
      (.inr ⟨not_isLost_of_pair h, _, rfl, Json.recovers_reread hx, fun ht => ?_⟩)
    rw [selectionField?_of_pair h, selectionField?_of_pair ((pair?_reread ht).trans h)]

def limitKeys : List String := ["direction", "relationshipKind", "fromKind", "maxCount"]

theorem saturation?_eq_some {x : Json} {n : Node} :
    saturation? x = some n ↔ ∃ o : Record, x = .obj o ∧ o.hasOnly limitKeys = true ∧
    ∃ direction, text? o "direction" = some direction ∧ directions.contains direction = true ∧
      ∃ kind, text? o "relationshipKind" = some kind ∧ ∃ fromKind, optionalText? o "fromKind" =
      some fromKind ∧
        ∃ most, o.get? "maxCount" = some (.num most) ∧
          Node.line (direction :: (string kind :: (fromKind.map string).toList) ++
            ["<=", number most]) = n := by
  have hkeys : ∀ o : Record, o.hasOnly ["direction", "relationshipKind", "fromKind", "maxCount"] =
    o.hasOnly limitKeys :=
    fun _ => rfl
  simp [saturation?, Option.bind_eq_some_iff, Json.object?_eq_some, number?_eq_some, hkeys]

theorem exists_predicate {k : String} {vs : List Value} {c : Comparator} {n : Number}
    {upper : Option Number} {s : Statement} (h : s.IsLine k vs (some (c, n, upper))) :
    ∃ span, s = .predicate k vs c n upper span := by
  cases h
  exact ⟨_, rfl⟩

theorem parses_limit {x : Json} (hx : x.isValid = true) {n : Node} (h : saturation? x = some n) :
    n.Parses (Adds part "saturationLimits" saturation? x) := by
  obtain ⟨o, rfl, hall, direction, hdirection, hdir, kind, hkind, fromKind, hfrom, most, hmost, rfl⟩ :=
    saturation?_eq_some.1 h
  have hleads : Leads direction := by
    simp only [directions, List.contains_eq_mem, List.mem_cons, List.not_mem_nil, or_false,
      decide_eq_true_eq] at hdir
    rcases hdir with rfl | rfl | rfl <;> exact ⟨by decide, by decide, by decide⟩
  have hwords := forall₂_strings fromKind.toList
  rw [← Option.toList_map] at hwords
  have hheld := isHeld_of_get? hx hmost
  refine (Node.parses_compared hleads.isName hleads.notSpecial hleads.notShaped
    (.cons (word_string kind) hwords) (.one .le hheld)).imp ?_
  rintro s ⟨vs, hs, hvs⟩ r
  rcases hvs with _ | ⟨hkind', hvs⟩
  have hread : saturation s direction .le most.reread none r =
      pure (r.extend "saturationLimits" [.obj (o.reread limitKeys)]) := by
    simp only [saturation, hs.args, Args.text_cons hkind'.text?, Args.text?_optional hvs,
      Args.finish_nil, pure_bind, Json.ofNumber_of_isFinite (Number.isFinite_reread hheld)]
    rw [limitKeys, Record.reread_text hdirection, Record.reread_text hkind,
      Record.reread_optionalText hfrom, Record.reread_of_some hmost, Record.reread_nil]
    rfl
  have hr : Rewritten o (o.reread limitKeys) := rewritten_reread hall (by decide) rfl
  have hpart : part (s, s.nested) r =
    pure (r.extend "saturationLimits" [.obj (o.reread limitKeys)]) := by
    obtain ⟨span, rfl⟩ := exists_predicate hs
    simp only [part, hdir, if_true, hread]
    rfl
  rw [hpart]
  refine yields_pure ⟨_, rfl, hr.recovers hx, fun ht => ?_⟩
  have ha := hr.alike ht
  rw [h]
  refine saturation?_eq_some.2 ⟨_, rfl, ?_, direction, ?_, hdir, kind, ?_, fromKind, ?_, most, ?_, rfl⟩
  · rw [ha.hasOnly, hall]
  · rw [ha.text?, hdirection]
  · rw [ha.text?, hkind]
  · rw [ha.optionalText?, hfrom]
  · rw [hr.get? _ (by decide), hmost, Option.map_some, Json.reread, reread_num_of_isTame ht hmost]

theorem selectionField?_limits (xs : List Json) :
    Json.selectionField? "saturationLimits" (.arr xs) = xs.mapM saturation? := by
  rw [Json.selectionField?, field?_arr]
  rfl

theorem selects_limits {xs : List Json} (hx : (Json.arr xs).isValid = true) :
    FieldSelects "saturationLimits" (.arr xs) := by
  intro ns hns
  rw [selectionField?_limits] at hns
  refine (adds_return (fun v hv n hn => parses_limit ((Json.every_arr.1 hx).2 v hv) hn) hns).imp
    fun ss hss r hr =>
    (hss r hr).imp ?_
  rintro _ (⟨rfl, rfl⟩ | ⟨hne, ys, rfl, hys⟩)
  · exact .inl ⟨rfl, rfl⟩
  · refine .inr ⟨?_, _, rfl, Json.recoversItems_iff.2 (hys.imp fun _ _ h => h.1), fun ht => ?_⟩
    · rw [Bool.eq_false_iff]
      intro hlost
      exact hne (Json.arr.inj (isLost_iff.1 hlost).2)
    · rw [selectionField?_limits, selectionField?_limits, mapM_of_returns hys (Json.every_arr.1 ht).2]

theorem selectionField?_filters {key : String} (hk : key = "filters" ∨ key = "preferFilters")
    (xs : List Json) : Json.selectionField? key (.arr xs) = (Json.arr xs).forms.filters.map fun list =>
    [.block [key] list] := by
  rw [Json.selectionField?, field?_arr]
  rcases hk with rfl | rfl <;> rfl

theorem selects_filters {key : String} (hk : key = "filters" ∨ key = "preferFilters") {xs : List Json}
    (h : ListReturns Filter.compile Forms.filters (.arr xs)) : FieldSelects key (.arr xs) := by
  intro ns hns
  rw [selectionField?_filters hk, Option.map_eq_some_iff] at hns
  obtain ⟨fs, hfs, rfl⟩ := hns
  have hleads : Leads key ∧ key ∉ lineWords := by
    rcases hk with rfl | rfl <;> exact ⟨⟨by decide, by decide, by decide⟩, by decide⟩
  refine (hleads.1.parses_block hleads.2 (h fs hfs)).imp ?_
  rintro _ ⟨ss, span, rfl, hss⟩ r hr
  rw [Statement.children_cons, Statement.children_nil, Statement.nested_block, compile]
  have hpart : part (.block key false [] ss span, .ofBody (Statement.children ss)) r = do
      return r.extend key (← Filter.compileAll (Statement.children ss)) := by
    rcases hk with rfl | rfl <;> rfl
  refine yields_thread_cons (P := fun r' => ∃ ys, r' = r ++ [(key, .arr ys)] ∧
    Returns (fun z => z.forms.filters) (.arr xs) (.arr ys)) ?_ ?_
  · rw [hpart]
    exact Yields.bind hss fun ys hys => yields_pure ⟨ys, Record.extend_of_not_mem hr ys, hys⟩
  · rintro _ ⟨ys, rfl, hys⟩
    refine yields_thread_nil (.inr ⟨?_, _, rfl, hys.1, fun ht => ?_⟩)
    · rcases hk with rfl | rfl <;> rfl
    · have := hys.2 ht
      simp only at this
      rw [selectionField?_filters hk, selectionField?_filters hk, this]

theorem part_origin {source : Value} {via : Option (Value × Value)} {span : Span}
    {y : Json} {r : Record} (h : origin source via span = pure y) (hr : "from" ∉ r.keys)
    (nested : Nested) : part (.origin source via span, nested) r = pure (r ++ [("from", y)]) := by
  simp only [part, h, pure_bind, setField_eq hr, liftM_pure]
  rfl

theorem parses_origin {x : Json} (hx : x.isValid = true) {n : Node} (h : origin? x = some n) :
    n.Parses fun s => ∀ nested (r : Record), "from" ∉ r.keys →
      ∃ y, part (s, nested) r = pure (r ++ [("from", y)]) ∧ Returns origin? x y := by
  cases x with
  | str s =>
    cases h
    have hret : Returns origin? (.str s) (.str s) := ⟨Json.recovers_str.2 rfl, fun _ => rfl⟩
    -- `graph` is a word of its own here, and any other text a reference
    by_cases hs : s = "graph"
    · subst hs
      refine (Node.parses_from (word_name (by decide) (by decide) (by decide))).imp ?_
      rintro _ ⟨v, span, rfl, hv⟩ nested r hr
      refine ⟨.str "graph", part_origin ?_ hr nested, hret⟩
      simp only [origin, hv.isWord, decide_true, if_true]
    · rw [if_neg hs]
      refine (Node.parses_from (word_reference s)).imp ?_
      rintro _ ⟨v, span, rfl, hv⟩ nested r hr
      refine ⟨.str s, part_origin ?_ hr nested, hret⟩
      have hgraph : v.isWord "graph" = false := by
        obtain ⟨_, rfl | rfl⟩ := hv.cases_str
        · rfl
        · simp [Value.isWord, Value.name?, hs]
      simp only [origin, hgraph, Bool.false_eq_true, if_false, reference_eq hv]
      rfl
  | obj o =>
    have hline := h
    simp [origin?, Option.bind_eq_some_iff] at h
    obtain ⟨hall, related, hrelated, kind, hkind, direction, hdirection, rfl⟩ := h
    have hr : Rewritten o (Record.reread o ["relatedTo", "relationshipKind", "direction"]) :=
      rewritten_reread hall (by decide) rfl
    refine (Node.parses_from_via (word_reference related) (word_string kind)
      (word_string direction)).imp ?_
    rintro _ ⟨v, k, d, span, rfl, hv, hk, hd⟩ nested r hnew
    refine ⟨_, part_origin ?_ hnew nested, hr.recovers hx, fun ht => ?_⟩
    · simp only [origin, hk.text?, hd.text?, reference_eq hv, pure_bind, liftM_pure]
      rw [Record.reread_text hrelated, Record.reread_text hkind, Record.reread_text hdirection]
      rfl
    · have ha := hr.alike ht
      simp only [origin?, ha.hasOnly, ha.text?]
  | _ => cases h

theorem selectionField?_from {x : Json} (h : (x.string?.isSome || x.object?.isSome) = true) :
    Json.selectionField? "from" x = (origin? x).map ([·]) := by
  cases x with
  | str s => rfl
  | obj o => rfl
  | _ => cases h

theorem selects_from {x : Json} (hx : x.isValid = true)
    (h : (x.string?.isSome || x.object?.isSome) = true) : FieldSelects "from" x := by
  intro ns hns
  rw [selectionField?_from h, Option.map_eq_some_iff] at hns
  obtain ⟨n, hn, rfl⟩ := hns
  refine (parses_origin hx hn).imp fun s hs r hr => ?_
  obtain ⟨y, hpart, hy⟩ := hs s.nested r hr
  rw [Statement.children_cons, Statement.children_nil, compile]
  refine yields_thread_cons (P := (· = r ++ [("from", y)])) (by rw [hpart]; exact yields_pure rfl) ?_
  rintro _ rfl
  refine yields_thread_nil (.inr ⟨rfl, y, rfl, hy.1, fun ht => ?_⟩)
  have hkin : Json.Kin x y := ⟨ht, hy.1⟩
  have hy' : (y.string?.isSome || y.object?.isSome) = true := by
    rw [Json.string?_of_recovers hy.1, hkin.isSome_object?, h]
  rw [selectionField?_from h, selectionField?_from hy', hy.2 ht]

def isSelector (key : String) (x : Json) : Bool :=
  (pair? key x).isSome ||
    (x.array?.isSome && ["saturationLimits", "filters", "preferFilters"].contains key) ||
    ((x.string?.isSome || x.object?.isSome) && key == "from")

theorem selectionField?_plain {key : String} {x : Json} (h : isSelector key x = false) :
    Json.selectionField? key x = some [Body.plain (quote key) key x x.forms] := by
  rw [isSelector, Bool.or_eq_false_iff, Bool.or_eq_false_iff, Option.isSome_eq_false_iff,
    Option.isNone_iff_eq_none] at h
  obtain ⟨⟨hpair, harr⟩, hfrom⟩ := h
  by_cases hx : ∃ xs, x = .arr xs
  · obtain ⟨xs, rfl⟩ := hx
    simp only [Json.array?, Option.isSome_some, Bool.true_and, List.contains_eq_mem, List.mem_cons,
      List.not_mem_nil, or_false, decide_eq_false_iff_not, not_or] at harr
    simp only [Json.selectionField?, field?_arr, hpair, harr, or_self, if_false]
  · rw [Json.selectionField?, field?_of_not_arr _ _ fun xs he => hx ⟨xs, he⟩, hpair]
    rw [Bool.and_eq_false_iff] at hfrom
    rcases hfrom with hfrom | hfrom
    · simp only [hfrom, Bool.false_eq_true, and_false, if_false]
    · simp only [beq_eq_false_iff_ne.1 hfrom, false_and, if_false]

theorem isSelector_of_kin {key : String} {x y : Json} (h : Json.Kin x y) :
    isSelector key y = isSelector key x := by
  have harr := Json.isNone_array?_of_recovers h.recovers
  rw [← Option.not_isSome, ← Option.not_isSome, Bool.not_inj_iff] at harr
  rw [isSelector, isSelector, h.isSome_pair? key, harr, Json.string?_of_recovers h.recovers,
    h.isSome_object?]

theorem selects_plain {key : String} {x : Json} (hx : x.isValid = true) (h : isSelector key x = false)
    (hfields : ∀ o, x = .obj o → ∀ m ∈ o, FieldReturns m.1 m.2) : FieldSelects key x := by
  intro ns hns
  rw [selectionField?_plain h] at hns
  cases hns
  refine (plain_returns (heads_selection key) hx hfields).imp fun s hs r hr => ?_
  rw [Statement.children_cons, Statement.children_nil, compile]
  refine yields_thread_cons (hs r hr) ?_
  rintro _ ⟨y, rfl, hy⟩
  refine yields_thread_nil (.inr ⟨?_, y, rfl, hy.1, fun ht => ?_⟩)
  · rw [Bool.eq_false_iff]
    intro hlost
    obtain ⟨rfl, rfl⟩ := isLost_iff.1 hlost
    cases h
  · have := hy.2 ht
    simp only at this
    rw [selectionField?_plain h, selectionField?_plain ((isSelector_of_kin ⟨ht, hy.1⟩).trans h), this]

/-- Every field of a selection is read back, but for an empty list of limits. -/
theorem field_selects (key : String) {x : Json} (hx : x.isValid = true)
    (hfilters : ListReturns Filter.compile Forms.filters x)
    (hfields : ∀ o, x = .obj o → ∀ m ∈ o, FieldReturns m.1 m.2) : FieldSelects key x := by
  cases hpair : pair? key x with
  | some ws => exact selects_pair hx hpair
  | none =>
    cases hs : isSelector key x with
    | false => exact selects_plain hx hs hfields
    | true =>
      rw [isSelector, hpair, Option.isSome_none, Bool.false_or, Bool.or_eq_true, Bool.and_eq_true,
        Bool.and_eq_true, beq_iff_eq] at hs
      rcases hs with ⟨harr, hk⟩ | ⟨hfrom, rfl⟩
      · obtain ⟨xs, harr⟩ := Option.isSome_iff_exists.1 harr
        obtain rfl := Json.array?_eq_some.1 harr
        simp only [List.contains_eq_mem, List.mem_cons, List.not_mem_nil, or_false,
          decide_eq_true_eq] at hk
        rcases hk with rfl | hk
        · exact selects_limits hx
        · exact selects_filters hk hfilters
      · exact selects_from hx hfrom

/-! ## Selections -/

def SelectionReturns (x : Json) : Prop :=
  ∀ ns, x.forms.selection = some ns → ParsesAll ns fun ss =>
    Yields (compile (Statement.children ss) []) fun r => Returns (fun z => z.forms.selection) x (.obj r)

def kept (o : Record) : Record := o.filter fun m => !isLost m

theorem kept_eq_self {o : Record} (ht : (Json.obj o).isTame = true) : kept o = o := by
  refine List.filter_eq_self.2 fun m hm => ?_
  rw [Bool.not_eq_true', Bool.eq_false_iff]
  intro hlost
  obtain ⟨hk, hx⟩ := isLost_iff.1 hlost
  have hlimited : Json.isLimited (.obj o) = true := Json.every_self ((Json.isTame_iff _).1 ht).2.2
  have hget : o.get? "saturationLimits" = some (.arr []) := by
    rw [← hk, ← hx]
    exact Record.get?_of_mem (Json.nodup_of_isValid (Json.isValid_of_isTame ht)) hm
  simp [Json.isLimited, hget] at hlimited

/-- What comes back of the kept fields recovers all of them. -/
theorem recovers_of_kept {α : Type} {form : String → Json → α} {o o' : Record} (hn : o.keys.Nodup)
    (h : FieldsReturned form (kept o) o') : Json.Recovers (.obj o) (.obj o') := by
  have hkept := h.recovers (Record.nodup_filter hn _)
  refine ⟨hkept.1, fun key hk => ?_, Json.recoversMembers_iff.2 fun m hm => ?_⟩
  · have := hkept.2.1 key hk
    exact (List.filter_sublist.map Prod.fst).subset this
  · cases hlost : isLost m with
    | false =>
      exact Json.recoversMembers_iff.1 hkept.2.2 m (List.mem_filter.2 ⟨hm, by rw [hlost]; rfl⟩)
    | true =>
      obtain ⟨hk, hx⟩ := isLost_iff.1 hlost
      refine .inr ⟨Record.get?_eq_none_iff.2 fun hmem => ?_, hk, hx⟩
      rw [h.keys] at hmem
      obtain ⟨m', hm', he⟩ := List.mem_map.1 hmem
      obtain ⟨hm', hnot⟩ := List.mem_filter.1 hm'
      -- keys stand once, so the kept field would be the lost one
      have : m'.2 = m.2 := by
        have h1 := Record.get?_of_mem hn (show (m.1, m'.2) ∈ o by rw [← he]; exact hm')
        have h2 := Record.get?_of_mem hn (show (m.1, m.2) ∈ o from hm)
        rw [h1] at h2
        exact Option.some.inj h2
      rw [Bool.not_eq_true', Bool.eq_false_iff] at hnot
      exact hnot (isLost_iff.2 ⟨he.trans hk, this.trans hx⟩)

theorem fields_select {o : Record} (h : ∀ m ∈ o, FieldSelects m.1 m.2) {parts : List (List Node)}
    (hparts : (o.mapM fun m => Json.selectionField? m.1 m.2) = some parts) :
    ParsesAll parts.flatten fun ss => ∀ r : Record, (r ++ o).keys.Nodup →
      Yields (compile (Statement.children ss) r) fun r' => ∃ o', r' = r ++ o' ∧
        FieldsReturned Json.selectionField? (kept o) o' := by
  induction o generalizing parts with
  | nil =>
    cases hparts
    exact fun r _ => yields_pure ⟨[], (List.append_nil r).symm, .nil⟩
  | cons m o ih =>
    obtain ⟨ns, more, hns, hmore, rfl⟩ := mapM_cons_eq_some.1 hparts
    rw [List.flatten_cons]
    refine (ih (fun m hm => h m (List.mem_cons_of_mem _ hm)) hmore).append
      (h m (List.mem_cons_self ..) ns hns) fun ss ts hss hts r hn => ?_
    have hm : m.1 ∉ r.keys := by
      rw [Record.keys_append, Record.keys_cons] at hn
      exact fun hc => (List.disjoint_of_nodup_append hn) hc (List.mem_cons_self ..)
    rw [Statement.children_append, compile, thread_append]
    refine (hss r hm).bind ?_
    rintro r' (⟨hlost, hr'⟩ | ⟨hkept, y, rfl, hy⟩)
    · have hn' : (r ++ o).keys.Nodup := by
        rw [Record.keys_append] at hn ⊢
        exact hn.sublist ((List.Sublist.refl _).append (List.sublist_cons_self ..))
      rw [kept, List.filter_cons, hlost, hr']
      exact hts r hn'
    · have hn' : Record.keys (r ++ [(m.1, y)] ++ o) = Record.keys (r ++ m :: o) := by simp
      refine (hts (r ++ [(m.1, y)]) (by rw [hn']; exact hn)).imp ?_
      rintro _ ⟨o', rfl, ho⟩
      refine ⟨(m.1, y) :: o', by simp, ?_⟩
      rw [kept, List.filter_cons, hkept]
      exact .cons ⟨rfl, hy⟩ ho

theorem selection_returns {o : Record} (hn : o.keys.Nodup) (h : ∀ m ∈ o, FieldSelects m.1 m.2) :
    SelectionReturns (.obj o) := by
  intro ns hns
  rw [Json.selection_obj, Option.map_eq_some_iff] at hns
  obtain ⟨parts, hparts, rfl⟩ := hns
  refine (fields_select h hparts).imp fun ss hss => (hss [] hn).imp ?_
  rintro _ ⟨o', rfl, ho⟩
  refine ⟨recovers_of_kept hn ho, fun ht => ?_⟩
  rw [kept_eq_self ht] at ho
  have hmap : ∀ r : Record, (r.mapM fun m => Json.selectionField? m.1 m.2) =
      (r.map fun m => Json.selectionField? m.1 m.2).mapM id := by
    intro r
    rw [List.mapM_map]
    rfl
  simp only [Json.selection_obj, hmap, ho.map (Json.every_obj.1 ht).2]

end Worldbook.Selector
