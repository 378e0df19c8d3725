import Worldbook.Proofs.Selections

/-!
# Variables

A variable is a selection and a flag, on one line if the selection is made of pairs. Variables come
back in the order in which they are written, which is an order they keep.
-/

namespace Worldbook.Selector

open Written CompileM

/-! ## Pairs -/

theorem pairs?_cons {key : String} {x : Json} {rest : Record} {ws : List String} :
    pairs? ((key, x) :: rest) = some ws ↔
      ∃ words more, pair? key x = some words ∧ pairs? rest = some more ∧ words ++ more = ws := by
  simp [pairs?, Option.bind_eq_some_iff]

theorem pairs?_reread {o : Record} (ht : ∀ m ∈ o, m.2.isTame = true) :
    pairs? (Json.rereadMembers o) = pairs? o := by
  induction o with
  | nil => rfl
  | cons m o ih =>
    obtain ⟨key, x⟩ := m
    rw [Json.rereadMembers, pairs?, pairs?, pair?_reread (ht _ (List.mem_cons_self ..)),
      ih fun m hm => ht m (List.mem_cons_of_mem _ hm)]

theorem bindingPairs_of {o : Record} (hv : ∀ m ∈ o, m.2.isValid = true) {ws : List String}
    (h : pairs? o = some ws) : ∃ Ps, List.Forall₂ Word ws Ps ∧ ∀ vs more, Meets Ps vs →
      (Value.pairs? (vs ++ more)).isSome = (Value.pairs? more).isSome ∧
      ∀ (r : Record) flag, (r ++ o).keys.Nodup →
        bindingPairs (vs ++ more) ⟨r, flag⟩ = bindingPairs more ⟨r ++ Json.rereadMembers o, flag⟩ := by
  induction o generalizing ws with
  | nil =>
    cases h
    refine ⟨[], .nil, fun vs more hvs => ?_⟩
    cases hvs
    exact ⟨rfl, fun r flag _ => by rw [Json.rereadMembers, List.append_nil, List.nil_append]⟩
  | cons m o ih =>
    obtain ⟨key, x⟩ := m
    obtain ⟨_, rest, hpair, hrest, rfl⟩ := pairs?_cons.1 h
    obtain ⟨w, v, P, rfl, hp⟩ := exists_paired (hv _ (List.mem_cons_self ..)) hpair
    obtain ⟨Ps, hPs, hread⟩ := ih (fun m hm => hv m (List.mem_cons_of_mem _ hm)) hrest
    have hw : Word w (·.Names w) :=
      word_name hp.leads.isName hp.leads.notSpecial fun he => hp.leads.notShaped (by simp [he])
    refine ⟨_, .cons hw (.cons hp.word hPs), fun vs more hvs => ?_⟩
    rcases hvs with _ | ⟨⟨span, rfl⟩, _ | ⟨hval, hvs⟩⟩
    obtain ⟨hsome, hbind⟩ := hread _ more hvs
    constructor
    · rw [← hsome, List.cons_append, List.cons_append, Value.pairs?, Value.key?, Value.name?,
        Option.filter_some, hp.isKey, if_pos rfl]
      cases Value.pairs? _ <;> rfl
    · intro r flag hn
      have hkey : key ∉ r.keys := by
        rw [Record.keys_append, Record.keys_cons] at hn
        exact fun hc => (List.disjoint_of_nodup_append hn) hc (List.mem_cons_self ..)
      simp only [List.cons_append, bindingPairs, Value.text?, Option.getD_some,
        hp.notRequired, if_false, hp.field _ hval _ r hkey, pure_bind]
      rw [hbind _ flag (by simpa using hn), Json.rereadMembers, List.append_assoc]
      rfl

/-! ## The flag -/

def flagWords : Option Bool → List String
  | none => []
  | some b => ["required", value (.bool b)]

theorem required?_eq_some {o : Record} {ws : List String} :
    required? o = some ws ↔ ∃ flag : Option Bool, o.get? "required" = flag.map .bool ∧
    flagWords flag = ws := by
  rw [required?]
  cases h : o.get? "required" with
  | none =>
    constructor
    · rintro ⟨⟩
      exact ⟨none, rfl, rfl⟩
    · rintro ⟨_ | b, hflag, rfl⟩
      · rfl
      · cases hflag
  | some x =>
    cases x with
    | bool b =>
      constructor
      · rintro ⟨⟩
        exact ⟨some b, rfl, rfl⟩
      · rintro ⟨_ | b, hflag, rfl⟩
        · cases hflag
        · cases hflag
          rfl
    | _ =>
      refine ⟨fun h => (by cases h), ?_⟩
      rintro ⟨_ | b, hflag, -⟩ <;> cases hflag

def flagValues : Option Bool → List (Value → Prop)
  | none => []
  | some b => [(·.Names "required"), (·.Spells (.bool b))]

theorem forall₂_flag (flag : Option Bool) : List.Forall₂ Word (flagWords flag) (flagValues flag) := by
  cases flag with
  | none => exact .nil
  | some b => exact .cons (word_name (by decide) (by decide) (by decide)) (.cons (word_value rfl) .nil)

theorem exists_bool_of_spells {v : Value} {b : Bool} (h : v.Spells (.bool b)) :
    ∃ span, v = .bool b span := by
  have hl := h.literal
  cases v with
  | bool flag span => exact ⟨span, by cases hl; rfl⟩
  | num n span =>
    simp only [Value.literal, Json.ofNumber] at hl
    split at hl <;> cases hl
  | _ => cases hl

theorem bindingPairs_flag {flag : Option Bool} {vs : List Value} (h : Meets (flagValues flag) vs) :
    (Value.pairs? vs).isSome = true ∧ ∀ r : Record, bindingPairs vs ⟨r, none⟩ = pure ⟨r, flag⟩ := by
  cases flag with
  | none =>
    cases h
    exact ⟨rfl, fun _ => rfl⟩
  | some b =>
    rcases h with _ | ⟨⟨span, rfl⟩, _ | ⟨hv, _ | _⟩⟩
    obtain ⟨span', rfl⟩ := exists_bool_of_spells hv
    exact ⟨rfl, fun _ => rfl⟩

/-! ## One variable -/

def Declares (name : String) (x : Json) (s : Statement) : Prop :=
  ∀ r held : Record, (r.get? "variables").getD (.obj []) = .obj held → name ∉ held.keys →
    Yields (Body.part (s, s.nested) r) fun r' =>
      ∃ y, r' = r.set "variables" (.obj (held ++ [(name, y)])) ∧
      Returns (fun z => z.forms.binding name) x y

def BindingReturns (name : String) (x : Json) : Prop :=
  ∀ n, x.forms.binding name = some n → n.Parses (Declares name x)

theorem binding?_eq_some {o : Record} {forms : String → Forms} {name : String} {n : Node} :
    binding? o forms name = some n ↔
      isBinding name.toList = true ∧ o.hasOnly ["select", "required"] = true ∧
      ∃ select, o.get? "select" = some (.obj select) ∧
      ∃ flag : Option Bool, o.get? "required" = flag.map .bool ∧
        ((∃ ws, pairs? select = some ws ∧ .line ("let" :: name :: (ws ++ flagWords flag)) = n) ∨
          (pairs? select = none ∧ ∃ ns, (forms "select").selection = some ns ∧ .block ["let", name]
            (.block ["select"] ns :: if flag.isNone then [] else [.line (flagWords flag)]) = n)) := by
  have hempty : ∀ flag : Option Bool, (flagWords flag).isEmpty = flag.isNone := by
    rintro (_ | _) <;> rfl
  have hselect : ∀ select, (o.get? "select").bind Json.object? = some select ↔
    o.get? "select" = some (.obj select) := by
    intro select
    simp only [Option.bind_eq_some_iff, Json.object?_eq_some, exists_eq_right]
  cases hb : isBinding name.toList with
  | false => simp [binding?, alias?, hb]
  | true =>
    cases hall : o.hasOnly ["select", "required"] with
    | false => simp [binding?, alias?, hb, hall]
    | true =>
      have heq : binding? o forms name = ((o.get? "select").bind Json.object?).bind fun select =>
          (required? o).bind fun required => (pairs? select).elim
            ((forms "select").selection.bind fun ns => some (.block ["let", name]
              (.block ["select"] ns :: if required.isEmpty then [] else [.line required])))
            fun words => some (.line (["let", name] ++ words ++ required)) := by
        simp only [binding?, alias?, hb, hall, if_true, Option.bind_eq_bind, Option.bind_some,
          Bool.not_true, Bool.false_eq_true, if_false]
        refine Option.bind_congr fun select _ => Option.bind_congr fun required _ => ?_
        cases pairs? select <;> rfl
      simp only [heq, Option.bind_eq_some_iff, hselect, required?_eq_some, true_and]
      refine exists_congr fun select => and_congr_right fun _ => ?_
      constructor
      · rintro ⟨_, ⟨flag, hflag, rfl⟩, h⟩
        refine ⟨flag, hflag, ?_⟩
        cases hp : pairs? select <;> simpa [hp, hempty, Option.bind_eq_some_iff] using h
      · rintro ⟨flag, hflag, h⟩
        refine ⟨_, ⟨flag, hflag, rfl⟩, ?_⟩
        cases hp : pairs? select <;> simpa [hp, hempty, Option.bind_eq_some_iff] using h

theorem setEntry_eq {name key : String} {value : Json} {duplicate : Problem} {span : Span}
    {r held : Record} (h : (r.get? name).getD (.obj []) = .obj held) (hk : key ∉ held.keys) :
    setEntry name key value duplicate span r = pure (r.set name (.obj (held ++ [(key, value)]))) := by
  simp only [setEntry, h, Record.has_eq_false.2 hk, Record.set_of_not_mem hk,
    Bool.false_eq_true, if_false]

def Entry (b : Binding) : Record :=
  ("select", .obj b.select) :: (b.required.map fun f => ("required", Json.bool f)).toList

/-- A variable whose body is read without a report is declared. -/
theorem gives_declaration {s : Statement} {nested : Nested} {name : String} {first : Value}
    {more : List Value} {r held : Record} {Q : Binding → Prop} (hs : s.positional = first :: more)
    (hf : first.Names name) (hname : isBinding name.toList = true)
    (hheld : (r.get? "variables").getD (.obj []) = .obj held) (hnew : name ∉ held.keys)
    (h : Gives (bindingOf s nested name more) Q) : Gives (declaration s nested r) fun r' => ∃ b, Q b ∧
      r' = r.set "variables" (.obj (held ++ [(name, .obj (Entry b))])) := by
  simp only [declaration, hs, hf.text?]
  refine h.bind fun b hb => (gives_lift (yields_declare (hasSigil_of_isBinding hname))).bind ?_
  rintro _ rfl
  rw [setEntry_eq hheld hnew]
  exact gives_lift (yields_pure ⟨b, hb, rfl⟩)

/-- A variable comes back with its flag and whatever its selection comes back as. -/
theorem returns_entry {o select : Record} {b : Binding} (hv : (Json.obj o).isValid = true)
    (hall : o.hasOnly ["select", "required"] = true) (hselect : o.get? "select" = some (.obj select))
    (hflag : o.get? "required" = b.required.map .bool)
    (hr : Json.Recovers (.obj select) (.obj b.select)) : Json.Recovers (.obj o) (.obj (Entry b)) := by
  refine recovers_of_hasOnly (Json.nodup_of_isValid hv) hall ?_ ?_ ?_
  · rw [Entry]
    cases b.required <;> simp
  · rw [Entry]
    cases b.required <;> simp [Record.hasOnly]
  · intro key hk
    simp only [List.mem_cons, List.not_mem_nil, or_false] at hk
    rcases hk with rfl | rfl
    · rw [hselect]
      exact .some hr
    · rw [hflag, Entry]
      cases b.required with
      | none => exact .none
      | some f => exact .some rfl

theorem parses_let_line {name : String} (hname : isBinding name.toList = true) {ws : List String}
    {Ps : List (Value → Prop)} (hws : List.Forall₂ Word ws Ps) :
    (Node.line ("let" :: name :: ws)).Parses fun s => ∃ first more, first.Names name ∧ Meets Ps more ∧
      s.positional = first :: more ∧ s.isBlock = false ∧
      ∀ nested r, Body.part (s, nested) r = orElseKeep (declaration s nested r) r := by
  refine (Node.parses_words (by decide) (by decide) (by decide) (.cons (word_binding hname) hws)).imp ?_
  rintro s ⟨vs, hs, hvs⟩
  rcases hvs with _ | ⟨hfirst, hmore⟩
  refine ⟨_, _, hfirst, hmore, hs.positional, hs.isBlock, fun nested r => ?_⟩
  generalize hvs : _ :: _ = vs at hs
  cases hs with
  | bare => cases hvs
  | field labels value span => rfl

theorem parses_let_block {name : String} (hname : isBinding name.toList = true) {body : List Node}
    {P : List Statement → Prop} (hbody : ParsesAll body P) :
    (Node.block ["let", name] body).Parses fun s => ∃ first ss, first.Names name ∧ P ss ∧
      s.positional = [first] ∧
      s.isBlock = true ∧ s.nested = .ofBody (Statement.children ss) ∧
      ∀ nested r, Body.part (s, nested) r = orElseKeep (declaration s nested r) r := by
  refine (Node.parses_named_block (by decide) (by decide) (by decide) (.cons (word_binding hname) .nil)
    hbody).imp ?_
  rintro _ ⟨labels, ss, span, rfl, hlabels, hss⟩
  rcases hlabels with _ | ⟨hfirst, _ | _⟩
  exact ⟨_, ss, hfirst, hss, rfl, rfl, Statement.nested_block .., fun nested r => rfl⟩

theorem parses_binding {select : Json} {flag : Option Bool} (hselect : SelectionReturns select)
    {ns : List Node} (hns : select.forms.selection = some ns) :
    ParsesAll (.block ["select"] ns :: if flag.isNone then [] else [.line (flagWords flag)]) fun ss =>
      Yields (binding (Statement.children ss)) fun b => b.required = flag ∧
        Returns (fun z => z.forms.selection) select (.obj b.select) := by
  have hleads : Leads "select" := ⟨by decide, by decide, by decide⟩
  refine (hleads.parses_block (by decide) (hselect ns hns)).imp ?_
  rintro _ ⟨ss, span, rfl, hss⟩
  have hfirst :
    Yields (bindingPart (.block "select" false [] ss span, .ofBody (Statement.children ss)) ⟨[], none⟩)
      fun b => b.required = none ∧ Returns (fun z => z.forms.selection) select (.obj b.select) :=
    Yields.bind hss fun r hr => yields_pure ⟨rfl, hr⟩
  cases flag with
  | none =>
    rw [if_pos (by rfl)]
    simp only [ParsesAll, Statement.children_cons, Statement.children_nil,
      Statement.nested_block, binding]
    exact yields_thread_cons hfirst fun b hb => yields_thread_nil hb
  | some f =>
    refine (Node.parses_words (by decide) (by decide) (by decide)
      (.cons (word_value (x := .bool f) rfl) .nil)).imp ?_
    rintro s ⟨vs, hs, hvs⟩
    rcases hvs with _ | ⟨hv, _ | _⟩
    obtain ⟨span', rfl⟩ := exists_field_of_one hs
    obtain ⟨span'', rfl⟩ := exists_bool_of_spells hv
    simp only [ParsesAll, Statement.children_cons, Statement.children_nil,
      Statement.nested_block, binding]
    refine yields_thread_cons hfirst ?_
    rintro ⟨r, _⟩ ⟨rfl, hr⟩
    exact yields_thread_cons (P := (· = ⟨r, some f⟩)) (yields_pure rfl) fun b hb =>
      yields_thread_nil (by rw [hb]; exact ⟨rfl, hr⟩)

/-- Whatever the selection comes back as, the variable is written as before if the selection is. -/
theorem binding_of_entry {o select : Record} (hv : (Json.obj o).isValid = true) {name : String}
    {n : Node} (hn : binding? o o.forms name = some n) (hsel : o.get? "select" = some (.obj select))
    {b : Binding} (hflag : o.get? "required" = b.required.map .bool)
    (hr : Json.Recovers (.obj select) (.obj b.select))
    (hagain : (Json.obj o).isTame = true → (∃ ws, pairs? select = some ws ∧ pairs? b.select = some ws) ∨
      (pairs? select = none ∧ pairs? b.select = none ∧
        (Json.obj b.select).forms.selection = (Json.obj select).forms.selection)) :
    Returns (fun z => z.forms.binding name) (.obj o) (.obj (Entry b)) := by
  obtain ⟨hname, hall, _, hsel', flag, hflag', hform⟩ := binding?_eq_some.1 hn
  obtain rfl := Json.obj.inj (Option.some.inj (hsel.symm.trans hsel'))
  have hentry := returns_entry hv hall hsel hflag hr
  refine ⟨hentry, fun ht => ?_⟩
  have ha := alike_of_recovers ht hentry
  simp only [Json.binding_obj, hn]
  refine binding?_eq_some.2 ⟨hname, by rw [ha.hasOnly, hall], b.select, rfl, b.required, ?_, ?_⟩
  · rw [Entry]
    cases b.required <;> rfl
  · obtain rfl : flag = b.required :=
      Option.map_injective (fun _ _ => Json.bool.inj) (hflag'.symm.trans hflag)
    obtain ⟨ws, hws, rfl⟩ | ⟨hp, ns, hns, rfl⟩ := hform
    · obtain ⟨ws', hws', hp'⟩ | ⟨hp, -⟩ := hagain ht
      · rw [hws] at hws'
        cases hws'
        exact .inl ⟨ws, hp', rfl⟩
      · rw [hp] at hws
        cases hws
    · obtain ⟨ws', hws', -⟩ | ⟨-, hp', hforms⟩ := hagain ht
      · rw [hp] at hws'
        cases hws'
      · refine .inr ⟨hp', ns, ?_, rfl⟩
        have hget : Record.get? (Entry b) "select" = some (.obj b.select) := rfl
        rw [Record.forms_of_some hget, hforms, ← Record.forms_of_some hsel, hns]

theorem binding_returns {o : Record} (hv : (Json.obj o).isValid = true)
    (hselect : ∀ key x, o.get? key = some x → SelectionReturns x) (name : String) :
    BindingReturns name (.obj o) := by
  intro n hn
  rw [Json.binding_obj] at hn
  obtain ⟨hname, -, select, hsel, flag, hflag, hform⟩ := binding?_eq_some.1 hn
  have hvalid := isValid_of_get? hv hsel
  -- the declaration puts the record of the binding under the name
  have hdeclares : ∀ {s : Statement} {first : Value} {more : List Value}, s.positional = first :: more →
    first.Names name →
      (∀ nested r, Body.part (s, nested) r = orElseKeep (declaration s nested r) r) →
      Gives (bindingOf s s.nested name more) (fun b =>
        Returns (fun z => z.forms.binding name) (.obj o) (.obj (Entry b))) →
      Declares name (.obj o) s := by
    intro s first more hs hf hpart hgives r held hheld hnew
    rw [hpart]
    refine yields_orElseKeep ((gives_declaration hs hf hname hheld hnew hgives).imp ?_)
    rintro _ ⟨b, hb, rfl⟩
    exact ⟨_, rfl, hb⟩
  rcases hform with ⟨ws, hws, rfl⟩ | ⟨hp, ns, hns, rfl⟩
  · obtain ⟨Ps, hPs, hread⟩ := bindingPairs_of (Json.isValid_members hvalid) hws
    refine (parses_let_line hname (List.rel_append hPs (forall₂_flag flag))).imp ?_
    rintro s ⟨first, vs, hf, hvs, hpos, hblock, hpart⟩
    refine hdeclares hpos hf hpart ?_
    obtain ⟨us, ts, hus, hts, rfl⟩ := forall₂_append_left hvs
    obtain ⟨hsome, hbind⟩ := hread us ts hus
    obtain ⟨hsome', hbind'⟩ := bindingPairs_flag hts
    have hpairs : (Value.pairs? (us ++ ts)).isNone = false := by
      rw [← Option.not_isSome, hsome, hsome']
      rfl
    simp only [bindingOf, hblock, hpairs, Bool.false_eq_true, if_false,
      hbind [] none (Json.nodup_of_isValid hvalid), List.nil_append, hbind']
    refine gives_lift (yields_pure (binding_of_entry hv hn hsel hflag
      (Json.recovers_rereadMembers hvalid) fun ht => .inl ⟨ws, hws, ?_⟩))
    rw [pairs?_reread (Json.every_obj.1 (isTame_of_get? ht hsel)).2, hws]
  · obtain ⟨x, hx, hns⟩ := Record.exists_of_form rfl hns
    rw [hsel] at hx
    cases hx
    refine (parses_let_block hname (parses_binding (hselect _ _ hsel) hns)).imp ?_
    rintro s ⟨first, ss, hf, hss, hpos, hblock, hnested, hpart⟩
    refine hdeclares hpos hf hpart ?_
    simp only [bindingOf, hblock, hnested, if_true]
    refine (gives_lift hss).imp ?_
    rintro b ⟨rfl, hb⟩
    refine binding_of_entry hv hn hsel hflag hb.1 fun ht => .inr ⟨hp, ?_, ?_⟩
    · have ha := alike_of_recovers (isTame_of_get? ht hsel) hb.1
      rw [← Option.not_isSome_iff_eq_none, isSome_pairs?, ha.all fun h key => h.isSome_pair? key,
        ← isSome_pairs?, hp]
      exact Bool.false_ne_true
    · exact hb.2 (isTame_of_get? ht hsel)

/-! ## All variables -/

theorem mapM_arranged {α : Type} (f : String → Json → Option α) (g : String → Option α) {o : Record}
    {keys : List String} (h : ∀ key ∈ keys, ∃ x, o.get? key = some x ∧ g key = f key x) :
    keys.mapM g = (o.arranged keys).mapM fun m => f m.1 m.2 := by
  induction keys with
  | nil => rfl
  | cons key keys ih =>
    obtain ⟨x, hx, hg⟩ := h key (List.mem_cons_self ..)
    rw [Record.arranged_of_some hx, List.mapM_cons, List.mapM_cons, hg, ih fun k hk =>
      h k (List.mem_cons_of_mem _ hk)]

/-- The variables of a record in the order in which they are written. -/
theorem bindings_eq {o : Record} {keys : List String} (h : ∀ key ∈ keys, key ∈ o.keys) :
    (keys.mapM fun name => (o.forms name).binding name) =
      (o.arranged keys).mapM fun m => m.2.forms.binding m.1 := by
  refine mapM_arranged (fun name x => x.forms.binding name) _ fun key hk => ?_
  obtain ⟨x, hx⟩ := Record.exists_of_mem_keys (h key hk)
  exact ⟨x, hx, by rw [Record.forms_of_some hx]⟩

/-- A record behind which variables are collected; as long as there is none,
the field is not there. -/
def holding (r held : Record) : Record := if held.isEmpty then r else r ++ [("variables", .obj held)]

theorem getD_holding {r held : Record} (h : "variables" ∉ r.keys) :
    ((holding r held).get? "variables").getD (.obj []) = .obj held := by
  cases held with
  | nil => simp [holding, Record.get?_eq_none_iff.2 h]
  | cons m held => simp [holding, Record.get?_append_last h]

theorem set_holding {r held : Record} (h : "variables" ∉ r.keys) (m : String × Json) :
    (holding r held).set "variables" (.obj (held ++ [m])) = holding r (held ++ [m]) := by
  have hne : (held ++ [m]).isEmpty = false := by simp
  rw [holding, holding, hne]
  cases held with
  | nil => exact Record.set_of_not_mem h _
  | cons _ _ => exact Record.set_append_last h _ _

theorem variables_return {vars : Record} (h : ∀ m ∈ vars, BindingReturns m.1 m.2) {ns : List Node}
    (hns : (vars.mapM fun m => m.2.forms.binding m.1) = some ns) :
    ParsesAll ns fun ss => ∀ r held : Record, "variables" ∉ r.keys → (held ++ vars).keys.Nodup →
      Yields (Body.fields (Statement.children ss) (holding r held)) fun r' =>
      ∃ more, r' = holding r (held ++ more) ∧
        FieldsReturned (fun name z => z.forms.binding name) vars more := by
  induction vars generalizing ns with
  | nil =>
    cases hns
    exact fun r held _ _ => yields_pure ⟨[], by rw [List.append_nil], .nil⟩
  | cons m vars ih =>
    obtain ⟨n, rest, hn, hrest, rfl⟩ := mapM_cons_eq_some.1 hns
    refine (h m (List.mem_cons_self ..) n hn).imp fun s hs =>
      (ih (fun m hm => h m (List.mem_cons_of_mem _ hm)) hrest).imp fun ss hss r held hr hnodup => ?_
    have hm : m.1 ∉ held.keys := by
      rw [Record.keys_append, Record.keys_cons] at hnodup
      exact fun hc => (List.disjoint_of_nodup_append hnodup) hc (List.mem_cons_self ..)
    rw [Statement.children_cons]
    refine yields_thread_cons (hs _ held (getD_holding hr) hm) ?_
    rintro _ ⟨y, rfl, hy⟩
    have hkeys : Record.keys (held ++ [(m.1, y)] ++ vars) = Record.keys (held ++ m :: vars) := by simp
    rw [set_holding hr]
    refine (hss r (held ++ [(m.1, y)]) hr (by rw [hkeys]; exact hnodup)).imp ?_
    rintro _ ⟨more, rfl, hmore⟩
    exact ⟨(m.1, y) :: more, by simp, .cons ⟨rfl, hy⟩ hmore⟩

theorem hasSigil_of_binding {x : Json} {name : String} {n : Node} (h : x.forms.binding name = some n) :
    Scope.hasSigil name = true := by
  cases x with
  | obj o =>
    rw [Json.binding_obj] at h
    exact hasSigil_of_isBinding (binding?_eq_some.1 h).1
  | _ => cases h

theorem bindings_return {o : Record} (hnodup : o.keys.Nodup) (hne : o ≠ [])
    (h : ∀ m ∈ o, BindingReturns m.1 m.2) {ns : List Node}
    (hns : (Json.obj o).forms.bindings = some ns) :
    ParsesAll ns fun ss => ∀ r : Record, "variables" ∉ r.keys →
      Yields (Body.fields (Statement.children ss) r) fun r' => ∃ y, r' = r ++ [("variables", y)] ∧
        Returns (fun z => z.forms.bindings) (.obj o) y := by
  have hperm := Variables.order_perm o
  have hmem : ∀ key ∈ Variables.order o, key ∈ o.keys := fun key hk => hperm.mem_iff.1 hk
  have hkeys := Record.keys_arranged hmem
  rw [Json.bindings_obj, bindings?, bindings_eq hmem] at hns
  have hmembers : ∀ m ∈ o.arranged (Variables.order o), BindingReturns m.1 m.2 := by
    intro m hm
    have hget := Record.get?_of_mem (by rw [hkeys]; exact hperm.nodup_iff.2 hnodup) hm
    rw [Record.get?_arranged_of_perm hperm] at hget
    exact h m (Record.mem_of_get? hget)
  -- the statements stand in the order of the variables, and come back in that order
  refine (variables_return hmembers hns).imp fun ss hss r hr => ?_
  refine (hss r [] hr (by rw [List.nil_append, hkeys]; exact hperm.nodup_iff.2 hnodup)).imp ?_
  rintro _ ⟨o', rfl, ho⟩
  have hkeys' : o'.keys = Variables.order o := ho.keys.trans hkeys
  have hrel : ∀ key, Option.Rel (Returns fun z => z.forms.binding key) (o.get? key) (o'.get? key) := by
    intro key
    have := ho.rel key
    rwa [Record.get?_arranged_of_perm hperm] at this
  have hr : Json.Recovers (.obj o) (.obj o') := by
    refine Json.recovers_of_get? hnodup (by rw [hkeys']; exact hperm.nodup_iff.2 hnodup) fun key => ?_
    have := ho.get? key
    rwa [Record.get?_arranged_of_perm hperm] at this
  have hne' : o' ≠ [] := by
    rintro rfl
    have := hperm.length_eq
    rw [← hkeys'] at this
    cases o with
    | nil => exact hne rfl
    | cons m o => cases this
  refine ⟨.obj o', ?_, hr, fun ht => ?_⟩
  · rw [List.nil_append, holding, if_neg (by simpa using hne')]
  -- what comes back is in order already, so it is written in the same order
  · have hsigil : ∀ key ∈ o.keys, Scope.hasSigil key = true := by
      intro key hk
      obtain ⟨x, hx⟩ := Record.exists_of_mem_keys hk
      rw [← Record.get?_arranged_of_perm hperm] at hx
      have hall : ((o.arranged (Variables.order o)).mapM fun (m : String × Json) =>
        m.2.forms.binding m.1).isSome = true := by rw [hns]; rfl
      rw [isSome_mapM, List.all_eq_true] at hall
      obtain ⟨n, hn⟩ := Option.isSome_iff_exists.1 (hall _ (Record.mem_of_get? hx))
      exact hasSigil_of_binding hn
    have horder := Variables.order_eq_of_alike (alike_of_recovers ht hr) hsigil hkeys'
    simp only [Json.bindings_obj, bindings?, horder]
    rw [bindings_eq hmem]
    refine mapM_arranged (fun name x => x.forms.binding name) _ fun key hk => ?_
    obtain ⟨x, hx⟩ := Record.exists_of_mem_keys (hmem key hk)
    have hkey := hrel key
    rw [hx] at hkey
    cases hy : o'.get? key with
    | none => rw [hy] at hkey; cases hkey
    | some y =>
      rw [hy] at hkey
      cases hkey with
      | some hxy => exact ⟨x, hx, by rw [Record.forms_of_some hy]; exact hxy.2 (isTame_of_get? ht hx)⟩

end Worldbook.Selector
