import Worldbook.Body.Compile
import Worldbook.Proofs.Forms

/-!
# Record bodies

A field is read back behind the fields in front of it, so a body is read back as its record, with
the fields in the same order. `Returns` says of a value what it comes back as in some place: a value
that recovers it and that, if the value is tame, is written there in the same way.
-/

namespace Worldbook

open Written CompileM

/-- The second value recovers the first, and a tame value has the same form there. -/
def Returns {α : Type} (form : Json → α) (x y : Json) : Prop :=
  Json.Recovers x y ∧ (x.isTame = true → form y = form x)

theorem recovers_of_returns {α : Type} {form : Json → α} {x y : Option Json}
    (h : Option.Rel (Returns form) x y) : Option.Rel Json.Recovers x y := by
  cases h with
  | none => exact .none
  | some hxy => exact .some hxy.1

namespace Statement

@[simp] theorem children_nil : children [] = [] := by rw [children]

@[simp] theorem children_cons (s : Statement) (ss : List Statement) :
    children (s :: ss) = (s, s.nested) :: children ss := by rw [children]

theorem children_append (ss ts : List Statement) :
    children (ss ++ ts) = children ss ++ children ts := by
  induction ss with
  | nil => simp
  | cons s ss ih => simp [ih]

@[simp] theorem nested_block (name : String) (quoted : Bool) (labels : List Value)
    (body : List Statement) (span : Span) : (Statement.block name quoted labels body span).nested =
      .ofBody (children body) := by rw [nested]

end Statement

/-! ## Fields one after the other -/

def FieldReturns (key : String) (x : Json) : Prop :=
  ParsesAll (Json.field key x) fun ss => ∀ r : Record, key ∉ r.keys →
    Yields (Body.fields (Statement.children ss) r) fun r' => ∃ y, r' = r ++ [(key, y)] ∧
      Returns (Json.field key) x y

def FieldsReturned {α : Type} (form : String → Json → α) (o o' : Record) : Prop :=
  List.Forall₂ (fun m m' => m'.1 = m.1 ∧ Returns (form m.1) m.2 m'.2) o o'

namespace FieldsReturned

variable {α : Type} {form : String → Json → α} {o o' : Record}

theorem keys (h : FieldsReturned form o o') : o'.keys = o.keys := by
  induction h with
  | nil => rfl
  | cons hm _ ih => rw [Record.keys_cons, Record.keys_cons, hm.1, ih]

theorem rel (h : FieldsReturned form o o') (key : String) :
    Option.Rel (Returns (form key)) (o.get? key) (o'.get? key) := by
  induction h with
  | nil => exact .none
  | @cons m m' _ _ hm _ ih =>
    obtain ⟨k, x⟩ := m
    obtain ⟨k', y⟩ := m'
    obtain ⟨rfl, hr⟩ := hm
    rw [Record.get?_cons, Record.get?_cons]
    split
    · next hk =>
      subst hk
      exact .some hr
    · exact ih

theorem get? (h : FieldsReturned form o o') (key : String) :
    Option.Rel Json.Recovers (o.get? key) (o'.get? key) := by
  have hrel := h.rel key
  revert hrel
  generalize o.get? key = a
  generalize o'.get? key = b
  rintro (⟨hr⟩ | _)
  · exact .some hr.1
  · exact .none

theorem recovers (h : FieldsReturned form o o') (hn : o.keys.Nodup) :
    Json.Recovers (.obj o) (.obj o') :=
  Json.recovers_of_get? hn (by rw [h.keys]; exact hn) h.get?

theorem map (h : FieldsReturned form o o') (ht : ∀ m ∈ o, m.2.isTame = true) :
    (o'.map fun m => form m.1 m.2) = o.map fun m => form m.1 m.2 := by
  induction h with
  | nil => rfl
  | @cons m m' _ _ hm _ ih =>
    rw [List.map_cons, List.map_cons, ih fun m hm => ht m (List.mem_cons_of_mem _ hm), hm.1,
      hm.2.2 (ht m (List.mem_cons_self ..))]

theorem body {o o' : Record} (h : FieldsReturned Json.field o o') (ht : (Json.obj o).isTame = true) :
    Json.body o' [] = Json.body o [] := by
  have hall : ∀ r : Record, Json.body r [] = (r.map fun m => Json.field m.1 m.2).flatten := by
    intro r
    rw [Json.body, List.filter_eq_self.2, List.flatMap_def]
    simp
  rw [hall, hall, h.map (Json.every_obj.1 ht).2]

end FieldsReturned

theorem fields_return {o : Record} (h : ∀ m ∈ o, FieldReturns m.1 m.2) :
    ParsesAll (o.flatMap fun m => Json.field m.1 m.2) fun ss => ∀ r : Record, (r ++ o).keys.Nodup →
      Yields (Body.fields (Statement.children ss) r) fun r' => ∃ o', r' = r ++ o' ∧
      FieldsReturned Json.field o o' := by
  induction o with
  | nil => exact fun r _ => yields_pure ⟨[], (List.append_nil r).symm, .nil⟩
  | cons m o ih =>
    rw [List.flatMap_cons]
    refine (ih fun m hm => h m (List.mem_cons_of_mem _ hm)).append (h m (List.mem_cons_self ..))
      fun ss ts hss hts r hn => ?_
    have hm : m.1 ∉ r.keys := by
      rw [Record.keys_append, Record.keys_cons] at hn
      exact fun hc => (List.disjoint_of_nodup_append hn) hc (List.mem_cons_self ..)
    rw [Statement.children_append, Body.fields, thread_append]
    refine (hss r hm).bind ?_
    rintro _ ⟨y, rfl, hy⟩
    have hn' : Record.keys (r ++ [(m.1, y)] ++ o) = Record.keys (r ++ m :: o) := by simp
    refine (hts (r ++ [(m.1, y)]) (by rw [hn']; exact hn)).imp ?_
    rintro _ ⟨o', rfl, ho⟩
    exact ⟨(m.1, y) :: o', by simp, .cons ⟨rfl, hy⟩ ho⟩

theorem body_returns {o : Record} (hn : o.keys.Nodup) (h : ∀ m ∈ o, FieldReturns m.1 m.2) :
    ParsesAll (Json.body o []) fun ss => Yields (Body.fields (Statement.children ss) []) fun o' =>
      FieldsReturned Json.field o o' := by
  have hall : Json.body o [] = o.flatMap fun m => Json.field m.1 m.2 := by
    rw [Json.body, List.filter_eq_self.2]
    simp
  rw [hall]
  refine (fields_return h).imp fun ss hss => (hss [] hn).imp ?_
  rintro _ ⟨o', rfl, ho⟩
  exact ho

/-! ## Lists filled by several statements -/

theorem mapM_cons_eq_some {α β : Type} {f : α → Option β} {x : α} {xs : List α} {ys : List β} :
    (x :: xs).mapM f = some ys ↔ ∃ y more, f x = some y ∧ xs.mapM f = some more ∧ ys = y :: more := by
  simp only [List.mapM_cons, Option.bind_eq_bind, Option.pure_def, Option.bind_eq_some_iff,
    Option.some.injEq]
  constructor
  · rintro ⟨y, hy, more, hmore, rfl⟩
    exact ⟨y, more, hy, hmore, rfl⟩
  · rintro ⟨y, more, hy, hmore, rfl⟩
    exact ⟨y, hy, more, hmore, rfl⟩

namespace Record

theorem extend_of_not_mem {r : Record} {key : String} (h : key ∉ r.keys) (items : List Json) :
    r.extend key items = r ++ [(key, .arr items)] := by
  rw [extend, get?_eq_none_iff.2 h, set_of_not_mem h]

theorem extend_append_last {r : Record} {key : String} (h : key ∉ r.keys) (held items : List Json) :
    extend (r ++ [(key, .arr held)]) key items = r ++ [(key, .arr (held ++ items))] := by
  simp only [extend, get?_append_last h, set_append_last h]

end Record

def Adds {α : Type} (part : Child → Record → CompileM Record) (key : String)
    (form : Json → α) (x : Json) (s : Statement) : Prop :=
  ∀ r : Record, Yields (part (s, s.nested) r) fun r' => ∃ y, r' = r.extend key [y] ∧ Returns form x y

theorem adds_return_held {part : Child → Record → CompileM Record} {key : String}
    {form : Json → Option Node} {items : List Json}
    (h : ∀ v ∈ items, ∀ n, form v = some n → n.Parses (Adds part key form v)) {ns : List Node}
    (hns : items.mapM form = some ns) : ParsesAll ns fun ss => ∀ (r : Record) (held : List Json),
    key ∉ r.keys →
      Yields (thread part (Statement.children ss) (r ++ [(key, .arr held)])) fun r' => ∃ ys,
        r' = r ++ [(key, .arr (held ++ ys))] ∧ List.Forall₂ (Returns form) items ys := by
  induction items generalizing ns with
  | nil =>
    cases hns
    exact fun r held _ => yields_pure ⟨[], by rw [List.append_nil], .nil⟩
  | cons v items ih =>
    obtain ⟨n, more, hn, hmore, rfl⟩ := mapM_cons_eq_some.1 hns
    refine (h v (List.mem_cons_self ..) n hn).imp fun s hs =>
      (ih (fun v hv => h v (List.mem_cons_of_mem _ hv)) hmore).imp fun ss hss r held hr => ?_
    rw [Statement.children_cons]
    refine yields_thread_cons (hs _) ?_
    rintro _ ⟨y, rfl, hy⟩
    rw [Record.extend_append_last hr]
    refine (hss r _ hr).imp ?_
    rintro _ ⟨ys, rfl, hys⟩
    exact ⟨y :: ys, by simp, .cons hy hys⟩

/-- Values that each add to a list fill it; no value leaves the record as it is. -/
theorem adds_return {part : Child → Record → CompileM Record} {key : String} {form : Json → Option Node}
    {items : List Json} (h : ∀ v ∈ items, ∀ n, form v = some n → n.Parses (Adds part key form v))
    {ns : List Node} (hns : items.mapM form = some ns) :
    ParsesAll ns fun ss => ∀ r : Record, key ∉ r.keys →
      Yields (thread part (Statement.children ss) r) fun r' => (items = [] ∧ r' = r) ∨
      (items ≠ [] ∧ ∃ ys,
        r' = r ++ [(key, .arr ys)] ∧ List.Forall₂ (Returns form) items ys) := by
  cases items with
  | nil =>
    cases hns
    exact fun r _ => yields_pure (.inl ⟨rfl, rfl⟩)
  | cons v items =>
    obtain ⟨n, more, hn, hmore, rfl⟩ := mapM_cons_eq_some.1 hns
    refine (h v (List.mem_cons_self ..) n hn).imp fun s hs =>
      (adds_return_held (fun v hv => h v (List.mem_cons_of_mem _ hv)) hmore).imp fun ss hss r hr => ?_
    rw [Statement.children_cons]
    refine yields_thread_cons (hs _) ?_
    rintro _ ⟨y, rfl, hy⟩
    rw [Record.extend_of_not_mem hr]
    refine (hss r _ hr).imp ?_
    rintro _ ⟨ys, rfl, hys⟩
    exact .inr ⟨by simp, y :: ys, rfl, .cons hy hys⟩

theorem mapM_of_returns {form : Json → Option Node} {xs ys : List Json}
    (h : List.Forall₂ (Returns form) xs ys) (ht : ∀ x ∈ xs, x.isTame = true) :
    ys.mapM form = xs.mapM form := by
  induction h with
  | nil => rfl
  | @cons x y _ _ hx _ ih =>
    rw [List.mapM_cons, List.mapM_cons, ih fun x hx => ht x (List.mem_cons_of_mem _ hx),
      hx.2 (ht x (List.mem_cons_self ..))]

/-! ## Plain fields -/

structure Heads (name key : String) (part : Child → Record → CompileM Record) : Prop where
  line : ∀ {ws : List String} {Ps : List (Value → Prop)}, List.Forall₂ Word ws Ps → ws ≠ [] →
    (Node.line (name :: ws)).Parses fun s => ∃ labels value, Meets Ps (labels ++ [value]) ∧
      ∀ nested (r : Record) (x : Json), key ∉ r.keys → (labels = [] → value.SpellsUnder key x) →
        (labels ≠ [] → Value.fieldLiteral labels value = x.reread) →
        part (s, nested) r = pure (r ++ [(key, x.reread)])
  block : ∀ {body : List Node} {P : List Statement → Prop}, ParsesAll body P →
    (Node.block [name] body).Parses fun s => ∃ ss, P ss ∧ ∀ r : Record, key ∉ r.keys →
      part (s, s.nested) r = do return r ++ [(key, .obj (← Body.fields (Statement.children ss) []))]

theorem fieldLiteral_nil {key : String} {value : Value} {x : Json} (h : value.SpellsUnder key x) :
    Value.fieldLiteral [] value = x.reread := h.literal

theorem fieldLiteral_of_both {key : String} {labels : List Value} {value : Value} {x : Json}
    (h : labels = [] → value.SpellsUnder key x)
    (h' : labels ≠ [] → Value.fieldLiteral labels value = x.reread) :
    Value.fieldLiteral labels value = x.reread := by
  by_cases hl : labels = []
  · rw [hl]
    exact fieldLiteral_nil (h hl)
  · exact h' hl

theorem heads_quoted (key : String) : Heads (quote key) key Body.part where
  line hws hne := (Node.parses_quoted key hws hne).imp fun s ⟨labels, value, span, hs, hvs⟩ =>
    ⟨labels, value, hvs, fun nested r x hr h h' => by
      rw [hs, Body.part, fieldLiteral_of_both h h', setField_eq hr]⟩
  block hbody := (Node.parses_quoted_block key hbody).imp fun s ⟨ss, span, hs, hss⟩ =>
    ⟨ss, hss, fun r hr => by
      rw [hs, Statement.nested_block]
      simp only [Body.part, Body.objectBlock, Nested.ofBody, setField_eq hr]⟩

theorem heads_selection (key : String) : Heads (quote key) key Selector.part where
  line hws hne := (Node.parses_quoted key hws hne).imp fun s ⟨labels, value, span, hs, hvs⟩ =>
    ⟨labels, value, hvs, fun nested r x hr h h' => by
      simp only [hs, Selector.part, fieldLiteral_of_both h h', setField_eq hr]⟩
  block hbody := (Node.parses_quoted_block key hbody).imp fun s ⟨ss, span, hs, hss⟩ =>
    ⟨ss, hss, fun r hr => by
      rw [hs, Statement.nested_block]
      simp only [Selector.part, Nested.ofBody, setField_eq hr]⟩

theorem not_mem_of_not_reserved {key : String} {words : List String} (hk : isReserved key = false)
    (hw : ∀ w ∈ words, isReserved w = true) : key ∉ words := by
  intro hm
  rw [hw key hm] at hk
  cases hk

theorem leads_plainKey {key : String} (hk : isPlainKey key = true) : Leads key :=
  have hr := isReserved_of_isPlainKey hk
  ⟨isName_of_isPlainKey hk, not_mem_of_not_reserved hr (by decide),
    not_mem_of_not_reserved hr (by decide)⟩

theorem heads_plain {key : String} (hk : isPlainKey key = true) (hl : key ∉ Body.languageKeys) :
    Heads key key Body.part := by
  have hlead := leads_plainKey hk
  have hr := isReserved_of_isPlainKey hk
  have hcreate : key ≠ "create" := ne_of_isReserved hr (by decide)
  have hlet : key ≠ "let" ∧ key ≠ "var" ∧ key ≠ "variable" :=
    ⟨ne_of_isReserved hr (by decide), ne_of_isReserved hr (by decide), ne_of_isReserved hr (by decide)⟩
  constructor
  case line =>
    intro ws Ps hws hne
    refine (Node.parses_words hlead.isName hlead.notSpecial hlead.notShaped hws).imp ?_
    rintro s ⟨vs, hs, hvs⟩
    cases hs with
    | bare =>
      cases hvs
      cases hws
      exact absurd rfl hne
    | field labels value span =>
      refine ⟨labels, value, hvs, fun nested r x hnew h h' => ?_⟩
      by_cases hlabels : labels = []
      · subst hlabels
        simp [Body.part, Body.field, hcreate, hlet, fieldValue_eq (h rfl), setField_eq hnew]
      · simp [Body.part, Body.field, hcreate, hlet, hlabels, h' hlabels, setField_eq hnew]
  case block =>
    intro body P hbody
    refine (Node.parses_named_block hlead.isName hlead.notSpecial
      (not_mem_of_not_reserved hr (by decide)) .nil hbody).imp ?_
    rintro s ⟨labels, ss, span, rfl, hlabels, hss⟩
    cases hlabels
    refine ⟨ss, hss, fun r hnew => ?_⟩
    simp only [Body.languageKeys, List.mem_cons, List.not_mem_nil, or_false, not_or] at hl
    simp [Body.part, Body.block, hl, hcreate, hlet, Body.objectBlock, Nested.ofBody, setField_eq hnew,
      Statement.span]

theorem plain_of_pairs (name key : String) {o : Record} {ws : List String} (hc : call? o = none)
    (hp : pairs? o = some ws) (hne : o ≠ []) :
    Body.plain name key (.obj o) (Json.obj o).forms = .line (name :: ws) := by
  cases o with
  | nil => exact absurd rfl hne
  | cons m o => simp [Body.plain, hc, hp]

theorem plain_of_block (name key : String) {o : Record} (hc : call? o = none) (hp : pairs? o = none) :
    Body.plain name key (.obj o) (Json.obj o).forms = .block [name] (Json.body o []) := by
  cases o with
  | nil => cases hp
  | cons m o => simp [Body.plain, hc, hp, Json.body_forms]

theorem plain_of_value (name key : String) {x : Json}
    (h : ∀ o, x = .obj o → o = [] ∨ (call? o).isSome = true) : Body.plain name key x x.forms = .line
    [name, fieldValue key x] := by
  cases x with
  | obj o =>
    cases o with
    | nil => rfl
    | cons m o =>
      have hc : (call? (m :: o)).isSome = true := (h _ rfl).resolve_left (by simp)
      simp [Body.plain, hc]
  | _ => rfl

/-- A value is one word, or an object of pairs, or an object that needs a block. -/
theorem plain_cases (x : Json) : (∀ o, x = .obj o → o = [] ∨ (call? o).isSome = true) ∨
    (∃ o ws, x = .obj o ∧ call? o = none ∧ pairs? o = some ws ∧ o ≠ []) ∨
    ∃ o, x = .obj o ∧ call? o = none ∧ pairs? o = none := by
  cases x with
  | obj o =>
    cases hc : call? o with
    | some p => exact .inl fun r h => .inr (by cases h; rw [hc]; rfl)
    | none =>
      by_cases hne : o = []
      · exact .inl fun r h => .inl (by cases h; exact hne)
      · cases hp : pairs? o with
        | some ws => exact .inr (.inl ⟨o, ws, rfl, hc, hp, hne⟩)
        | none => exact .inr (.inr ⟨o, rfl, hc, hp⟩)
  | _ => exact .inl nofun

theorem reread_of_call {x : Json} (h : ∀ o, x = .obj o → o = [] ∨ (call? o).isSome = true) :
    ∀ o, x.reread = .obj o → o = [] ∨ (call? o).isSome = true := by
  intro o ho
  cases x with
  | obj members =>
    rcases h members rfl with rfl | hc
    · cases ho; exact .inl rfl
    · obtain ⟨⟨name, args⟩, hc⟩ := Option.isSome_iff_exists.1 hc
      obtain ⟨-, -, -, hn, ha⟩ := call?_eq_some.1 hc
      rw [Json.reread_call hc] at ho
      cases ho
      rw [Json.call?_of_call hn ha]
      exact .inr rfl
  | _ => cases ho

theorem plain_returns {name key : String} {part : Child → Record → CompileM Record}
    (hh : Heads name key part) {x : Json} (hx : x.isValid = true)
    (hfields : ∀ o, x = .obj o → ∀ m ∈ o, FieldReturns m.1 m.2) :
    (Body.plain name key x x.forms).Parses fun s => ∀ r : Record, key ∉ r.keys →
      Yields (part (s, s.nested) r) fun r' => ∃ y, r' = r ++ [(key, y)] ∧
        Returns (fun z => Body.plain name key z z.forms) x y := by
  -- one value, an object of pairs, or an object that needs a block
  rcases plain_cases x with hcall | ⟨o, ws, rfl, hcall, hpairs, hne⟩ | ⟨o, rfl, hcall, hpairs⟩
  · have hplain := plain_of_value name key hcall
    rw [hplain]
    refine (hh.line (.cons (word_fieldValue key hx) .nil) (by simp)).imp ?_
    rintro s ⟨labels, value, hvs, hpart⟩ r hr
    have hlabels : labels = [] := by
      have := hvs.length_eq
      simpa using this.symm
    subst hlabels
    rcases hvs with _ | ⟨hv, _ | _⟩
    rw [hpart s.nested r x hr (fun _ => hv) (fun h => absurd rfl h)]
    refine yields_pure ⟨_, rfl, Json.recovers_reread hx, fun ht => ?_⟩
    simp only [hplain, plain_of_value name key (reread_of_call hcall), fieldValue_reread key ht]
  · have hplain := plain_of_pairs name key hcall hpairs hne
    rw [hplain]
    have hvalid := Json.isValid_members hx
    have hwne : ws ≠ [] := by
      cases o with
      | nil => exact absurd rfl hne
      | cons m o =>
        obtain ⟨-, -, more, -, rfl⟩ := pairs?_cons.1 hpairs
        simp
    refine (hh.line (forall₂_pairs hvalid hpairs) hwne).imp ?_
    rintro s ⟨labels, value, hvs, hpart⟩ r hr
    have hlabels : labels ≠ [] := by
      rintro rfl
      have := length_of_pairs hvs
      simp at this
      omega
    have hread : (Json.obj o).reread = .obj (Json.rereadMembers o) := Json.reread_obj hcall
    rw [hpart s.nested r (.obj o) hr (fun h => absurd h hlabels) fun _ => by
      rw [Value.fieldLiteral_of hpairs hvs (Json.nodup_of_isValid hx), hread]]
    refine yields_pure ⟨_, rfl, Json.recovers_reread hx, fun ht => ?_⟩
    have hagain : pairs? (Json.rereadMembers o) = some ws := by
      rw [pairs?_reread (Json.every_obj.1 ht).2, hpairs]
    have hne' : Json.rereadMembers o ≠ [] := by
      intro he
      have := Json.length_rereadMembers o
      rw [he] at this
      exact hne (List.length_eq_zero_iff.1 this.symm)
    simp only [hplain, hread, plain_of_pairs name key (Json.call?_rereadMembers hcall) hagain hne']
  · have hplain := plain_of_block name key hcall hpairs
    rw [hplain]
    have hn := Json.nodup_of_isValid hx
    refine (hh.block (body_returns hn (hfields o rfl))).imp ?_
    rintro s ⟨ss, hss, hpart⟩ r hr
    rw [hpart r hr]
    refine hss.bind fun o' ho => yields_pure ⟨_, rfl, ho.recovers hn, fun ht => ?_⟩
    have ha := alike_of_recovers ht (ho.recovers hn)
    have hcall' : call? o' = none := by
      rw [← Option.not_isSome_iff_eq_none, ha.isSome_call?, hcall]
      exact nofun
    have hpairs' : pairs? o' = none := by
      rw [← Option.not_isSome_iff_eq_none, ha.isSome_pairs?, hpairs]
      exact nofun
    simp only [hplain, plain_of_block name key hcall' hpairs', ho.body ht]

end Worldbook
