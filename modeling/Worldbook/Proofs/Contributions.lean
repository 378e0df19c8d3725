import Worldbook.Proofs.Accounts

/-!
# What a statement does to the record of a body

`Effect` says in one place what a statement of a record body can do to the record: it sets a field,
adds a key to an object, adds to a list, or leaves the record alone over an error. There is one more
case, which is a hole: `create do ... end` names no entity and is passed over in silence.
-/

namespace Worldbook

open CompileM

def Ensures {α : Type} (m : Attempt α) (Q : α → Prop) : Prop := ∀ c a, (m.run.run c).1 = some a → Q a

section
variable {α β : Type}

theorem ensures_pure {a : α} {Q : α → Prop} (h : Q a) : Ensures (pure a) Q := by
  intro c b hb
  cases hb
  exact h

theorem ensures_bind {m : Attempt α} {k : α → Attempt β} {Q : β → Prop} (h : ∀ a, Ensures (k a) Q) :
    Ensures (m >>= k) Q := by
  intro c b hb
  rw [OptionT.run_bind, Option.elimM, StateT.run_bind] at hb
  cases hm : m.run.run c with
  | mk r c' =>
    rw [hm] at hb
    cases r with
    | none => cases hb
    | some a => exact h a c' b hb

theorem Ensures.of_runs {m : Attempt α} {Q : α → Prop} (hm : Ensures m Q) {s s' : Scope} {a : α}
    {new : List Diagnostic} (h : Runs m.run s (some a) s' new) : Q a := by
  apply hm ⟨s, []⟩ a
  rw [h []]

end

/-! ## Fields, entries and items -/

namespace Record

/-- The items of the list under a key; any other value has none. -/
def itemsOf (r : Record) (key : String) : List Json := ((r.get? key).bind Json.array?).getD []

theorem extend_eq_set (r : Record) (key : String) (xs : List Json) :
    r.extend key xs = r.set key (.arr (r.itemsOf key ++ xs)) := by
  unfold extend itemsOf
  cases h : r.get? key with
  | none => simp
  | some v => cases v <;> simp [Json.array?]

end Record

section
variable {name key : String} {value : Json} {duplicate : Problem} {span : Span} {r r' : Record}
  {s s' : Scope} {new : List Diagnostic}

theorem runs_setEntry {held : Record} (h : (r.get? name).getD (.obj []) = .obj held) (s : Scope) :
    Runs (setEntry name key value duplicate span r) s (r.set name (.obj (held.set key value))) s
      (if held.has key then [duplicate.reported span] else []) := by
  intro ds
  simp only [setEntry, h]
  by_cases hk : held.has key = true
  · simp only [hk, if_true]
    rfl
  · simp only [hk, if_false, Bool.false_eq_true, List.append_nil]
    rfl

theorem runs_setEntry_refused (h : ∀ held, (r.get? name).getD (.obj []) ≠ .obj held) (s : Scope) :
    Runs (setEntry name key value duplicate span r) s r s
    [(Problem.notAnObject name).reported span] := by
  intro ds
  unfold setEntry
  split
  · next held hheld => exact absurd hheld (h held)
  · rfl

/-- An entry is set in an object, over a report if it was there before; or
there is no object, which is an error. -/
theorem Runs.cases_setEntry (h : Runs (setEntry name key value duplicate span r) s r' s' new) :
    (∃ held : Record, (r.get? name).getD (.obj []) = .obj held ∧
      r' = r.set name (.obj (held.set key value)) ∧
      (held.has key = true → duplicate.reported span ∈ new)) ∨
    (r' = r ∧ ∃ d ∈ new, d.isError = true) := by
  by_cases hobj : ∃ held, (r.get? name).getD (.obj []) = .obj held
  · obtain ⟨held, hheld⟩ := hobj
    obtain ⟨rfl, -, hnew⟩ := (runs_setEntry hheld s).eq h
    refine .inl ⟨held, hheld, rfl, ?_⟩
    intro hk
    rw [if_pos hk] at hnew
    exact hnew ▸ List.mem_singleton_self _
  · have hnone : ∀ held, (r.get? name).getD (.obj []) ≠ .obj held := fun held hheld =>
      hobj ⟨held, hheld⟩
    obtain ⟨rfl, -, rfl⟩ := (runs_setEntry_refused hnone s).eq h
    exact .inr ⟨rfl, _, List.mem_singleton_self _, rfl⟩

end

namespace Body

/-! ## Statements that declare -/

/-- The field to which a declaring statement adds an entry. -/
def declares? : Statement → Option String
  | .field key false .. | .block key false .. =>
    if key = "create" then some "creation"
    else if key = "let" ∨ key = "var" ∨ key = "variable" then some "variables"
    else none
  | .rel .. => some "relationships"
  | .mutate .. => some "stateUpdates"
  | _ => none

/-- The words of the blocks that hold the items of a list. -/
def listWords : List String :=
  ["applicability", "conditions", "filters", "preferFilters", "mutations", "effects", "stateUpdates"]

/-- The list to which a statement adds items. -/
def extends? (t : Statement) : Option String :=
  match declares? t, t with
  | some slot, _ => if slot = "variables" then none else some slot
  | none, .block name false .. => if name ∈ listWords then some name else none
  | none, _ => none

/-- A block `create do ... end`, which names no entity. -/
def isUnnamed : Statement → Bool
  | .block "create" false [] _ _ => true
  | _ => false

/-- What a statement of a body does to the record, where `new` is what it reports. -/
inductive Effect (t : Statement) (r : Record) (new : List Diagnostic) : Record → Prop
  | kept (h : (∃ d ∈ new, d.isError = true) ∨ isUnnamed t = true) : Effect t r new r
  | field (key : String) (value : Json) (ht : declares? t = none)
      (h : r.has key = true → ∃ span, (Problem.duplicateKey key).reported span ∈ new) :
      Effect t r new (r.set key value)
  | entry (name key : String) (value : Json) (held : Record) (ht : declares? t = none)
      (hheld : (r.get? name).getD (.obj []) = .obj held)
      (h : held.has key = true → ∃ span, (Problem.duplicateEntry key name).reported span ∈ new) :
      Effect t r new (r.set name (.obj (held.set key value)))
  | variable (key : String) (value : Json) (held : Record) (ht : declares? t = some "variables")
      (hheld : (r.get? "variables").getD (.obj []) = .obj held)
      (h : held.has key = true → ∃ span, (Problem.duplicateVariable key).reported span ∈ new) :
      Effect t r new (r.set "variables" (.obj (held.set key value)))
  | items (key : String) (xs : List Json) (ht : extends? t = some key)
      (h : declares? t = some key → ∃ x, xs = [x]) :
      Effect t r new (r.set key (.arr (r.itemsOf key ++ xs)))

/-- Reports beside those of the step do no harm. -/
theorem Effect.mono {t : Statement} {r r' : Record} {new all : List Diagnostic} (h : Effect t r new r')
    (hall : new ⊆ all) : Effect t r all r' := by
  cases h with
  | kept h => exact .kept (h.imp_left fun ⟨d, hd, herror⟩ => ⟨d, hall hd, herror⟩)
  | field key value ht h => exact .field key value ht fun hk => (h hk).imp fun span hd => hall hd
  | entry name key value held ht hheld h =>
    exact .entry name key value held ht hheld fun hk => (h hk).imp fun span hd => hall hd
  | «variable» key value held ht hheld h =>
    exact .variable key value held ht hheld fun hk => (h hk).imp fun span hd => hall hd
  | items key xs ht h => exact .items key xs ht h

theorem effect_of_setField {t : Statement} (ht : declares? t = none) {key : String} {value : Json}
    {span : Span} {r r' : Record} {s s' : Scope} {new : List Diagnostic}
    (h : Runs (setField key value span r) s r' s' new) : Effect t r new r' := by
  obtain ⟨rfl, -, hnew⟩ := (runs_setField key value span r s).eq h
  refine .field key value ht ?_
  intro hk
  rw [if_pos hk] at hnew
  exact ⟨span, hnew ▸ List.mem_singleton_self _⟩

theorem effect_of_report {t : Statement} {p : Problem} (hp : p.severity = .error) {span : Span}
    {r r' : Record} {s s' : Scope} {new : List Diagnostic}
    (h : Runs (do report p span; return r) s r' s' new) : Effect t r new r' := by
  obtain ⟨rfl, -, rfl⟩ := ((runs_report p span s).bind (runs_pure r s)).eq h
  refine .kept (.inl ⟨p.reported span, by simp, ?_⟩)
  simp [Diagnostic.isError, Problem.reported, hp]

theorem effect_of_objectBlock {t : Statement} (ht : declares? t = none) {name : String}
    {labels : List Value} {object : Json} {span : Span} {r r' : Record} {s s' : Scope}
    {new : List Diagnostic} (h : Runs (objectBlock name labels object span r) s r' s' new) :
    Effect t r new r' := by
  unfold objectBlock at h
  split at h
  · exact effect_of_setField ht h
  · next label =>
    split at h
    · next text htext =>
      obtain ⟨held, hheld, rfl, hnew⟩ | ⟨rfl, herror⟩ := h.cases_setEntry
      · exact .entry name text object held ht hheld fun hk => ⟨span, hnew hk⟩
      · exact .kept (.inl herror)
    · exact effect_of_report rfl h
  · exact effect_of_report rfl h

/-- A block in a language of its own, whose items go to the list under its name. -/
theorem effect_of_listBlock {t : Statement} {name : String} (hname : extends? t = some name)
    (ht : declares? t = none) {labels : List Value} {m : CompileM (List Json)} (hm : Appends m)
    {r r' : Record} {s s' : Scope} {new : List Diagnostic}
    (h : Runs (do rejectLabels name labels; return r.extend name (← m)) s r' s' new) :
    Effect t r new r' := by
  obtain ⟨_, s₁, first, more, -, h, -⟩ :=
    h.split_seq (mirrors_rejectLabels name labels).appends fun _ => hm.bind fun xs => appends_pure _
  obtain ⟨xs, -, rfl⟩ := h.split_map hm
  rw [Record.extend_eq_set]
  refine .items name xs hname ?_
  intro hd
  rw [ht] at hd
  cases hd

theorem creation_of_runs {t : Statement} {r r' : Record} {s s' : Scope} {new : List Diagnostic}
    (h : Runs (creation t t.nested r).run s (some r') s' new) :
    (t.positional = [] ∧ r' = r) ∨ ∃ entry, r' = r.extend "creation" [entry] := by
  unfold creation at h
  cases hpos : t.positional with
  | nil =>
    rw [hpos] at h
    exact .inl ⟨rfl, (Runs.of_pure h).symm⟩
  | cons first more =>
    rw [hpos] at h
    right
    refine Ensures.of_runs (Q := fun r' => ∃ entry, r' = r.extend "creation" [entry]) ?_ h
    have hlast (m : Attempt Record) :
      Ensures (do let entry ← m; return r.extend "creation" [.obj entry])
        fun r' => ∃ entry, r' = r.extend "creation" [entry] :=
      ensures_bind fun entry => ensures_pure ⟨.obj entry, rfl⟩
    refine ensures_bind fun name => ensures_bind fun reference => ?_
    dsimp only
    by_cases hblock : t.isBlock = true
    · rw [if_pos hblock]
      cases more with
      | nil => exact hlast _
      | cons extra more => exact ensures_bind fun _ => hlast _
    · rw [if_neg hblock]
      exact hlast _

theorem isUnnamed_of_positional {t : Statement} (ht : declares? t = some "creation")
    (h : t.positional = []) : isUnnamed t = true := by
  cases t with
  | field key quoted labels value span => simp [Statement.positional] at h
  | block name quoted labels body span =>
    cases quoted with
    | true => simp [declares?] at ht
    | false =>
      simp only [declares?] at ht
      by_cases hname : name = "create"
      · subst hname
        simp only [Statement.positional] at h
        simp [isUnnamed, h]
      · rw [if_neg hname] at ht
        split at ht <;> simp at ht
  | rel | mutate | predicate | within | origin | bare => simp [declares?] at ht

theorem effect_of_creation {t : Statement} (ht : declares? t = some "creation") {r r' : Record}
    {s s' : Scope} {new : List Diagnostic}
    (h : Runs (orElseKeep (creation t t.nested r) r) s r' s' new) : Effect t r new r' := by
  have htries := tries_creation t t.mirrored_nested r
  obtain ⟨h, rfl⟩ | h := h.split_orElseKeep htries.onlyAdds
  · exact .kept (.inl (htries.error_of_runs h))
  · obtain ⟨hpos, rfl⟩ | ⟨entry, rfl⟩ := creation_of_runs h
    · exact .kept (.inr (isUnnamed_of_positional ht hpos))
    · rw [Record.extend_eq_set]
      exact .items "creation" [entry] (by simp [extends?, ht]) fun _ => ⟨entry, rfl⟩

theorem effect_of_declaration {t : Statement} (ht : declares? t = some "variables") {r r' : Record}
    {s s' : Scope} {new : List Diagnostic}
    (h : Runs (orElseKeep (Selector.declaration t t.nested r) r) s r' s' new) :
    Effect t r new r' := by
  have htries := Selector.tries_declaration t t.mirrored_nested r
  obtain ⟨h, rfl⟩ | h := h.split_orElseKeep htries.onlyAdds
  · exact .kept (.inl (htries.error_of_runs h))
  · unfold Selector.declaration at h
    split at h
    · next first more hpos =>
      split at h
      · next name hname =>
        have hbinding := (Selector.tries_bindingOf t t.mirrored_nested name more).onlyAdds
        have hdeclare := (mirrors_declare name).lift.onlyAdds
        have hset (b : Binding) (reference : String) : OnlyAdds (liftM (setEntry "variables" reference
            (.obj (("select", .obj b.select) ::
              (b.required.map fun f => ("required", Json.bool f)).toList))
            (.duplicateVariable reference) t.span r) : Attempt Record) :=
              (mirrors_setEntry _ _ _ t.span r).lift.onlyAdds
        obtain ⟨b, s₁, _, _, -, h₁, rfl⟩ := h.split hbinding fun b => hdeclare.bind (hset b)
        obtain ⟨reference, s₂, _, _, -, h₂, rfl⟩ := h₁.split hdeclare (hset b)
        obtain ⟨held, hheld, rfl, hnew⟩ | ⟨rfl, d, hd, herror⟩ :=
          (h₂.of_lift (mirrors_setEntry _ _ _ t.span r).appends).cases_setEntry
        · exact .variable reference _ held ht hheld fun hk => ⟨t.span, by simp [hnew hk]⟩
        · exact .kept (.inl ⟨d, by simp [hd], herror⟩)
      · exact absurd h not_runs_reject
    · exact absurd h not_runs_reject

theorem declares?_field {key : String} {labels : List Value} {value : Value} {span : Span}
    (hcreate : key ≠ "create") (hlet : ¬(key = "let" ∨ key = "var" ∨ key = "variable")) :
    declares? (.field key false labels value span) = none := by
  simp only [declares?, if_neg hcreate, if_neg hlet]

theorem effect_of_field {t : Statement} {key : String} {labels : List Value} {value : Value}
    {span : Span} (hcase : t = .field key false labels value span) {r r' : Record} {s s' : Scope}
    {new : List Diagnostic} (h : Runs (field t key labels value t.nested r) s r' s' new) :
    Effect t r new r' := by
  unfold field at h
  by_cases hcreate : key = "create"
  · rw [if_pos hcreate] at h
    exact effect_of_creation (by simp [hcase, declares?, hcreate]) h
  rw [if_neg hcreate] at h
  by_cases hlet : key = "let" ∨ key = "var" ∨ key = "variable"
  · rw [if_pos (by simpa [or_assoc] using hlet)] at h
    exact effect_of_declaration (by simp [hcase, declares?, hcreate, hlet]) h
  rw [if_neg (by simpa [or_assoc] using hlet)] at h
  have ht : declares? t = none := hcase ▸ declares?_field hcreate hlet
  by_cases hlabels : labels.isEmpty = true
  · rw [if_pos hlabels] at h
    obtain ⟨found, s₁, first, more, -, hset, rfl⟩ :=
      h.split_seq (mirrors_fieldValue key value).appends fun found => appends_setField key found _ r
    exact (effect_of_setField ht hset).mono (List.subset_append_right first more)
  · rw [if_neg hlabels] at h
    exact effect_of_setField ht h

theorem declares?_block {name : String} {labels : List Value} {body : List Statement} {span : Span}
    (hcreate : name ≠ "create") (hlet : ¬(name = "let" ∨ name = "var" ∨ name = "variable")) :
    declares? (.block name false labels body span) = none := by
  simp only [declares?, if_neg hcreate, if_neg hlet]

theorem extends?_block {name : String} {labels : List Value} {body : List Statement} {span : Span}
    (h : name ∈ listWords) : extends? (.block name false labels body span) = some name ∧
      declares? (.block name false labels body span) = none := by
  have ht : declares? (.block name false labels body span) = none := by
    apply declares?_block
    · rintro rfl
      simp [listWords] at h
    · rintro (rfl | rfl | rfl) <;> simp [listWords] at h
  exact ⟨by simp only [extends?, ht, if_pos h], ht⟩

theorem effect_of_block {t : Statement} {name : String} {labels : List Value} {body : List Statement}
    {span : Span} (hcase : t = .block name false labels body span) {r r' : Record} {s s' : Scope}
    {new : List Diagnostic} (h : Runs (block t name labels t.nested r) s r' s' new) :
    Effect t r new r' := by
  have hnested := t.mirrored_nested
  have hlist (hname : name ∈ listWords) : extends? t = some name ∧ declares? t = none := by
    rw [hcase]
    exact extends?_block hname
  unfold block at h
  -- The tests are those of `block`, in its order.
  by_cases hconditions : name = "applicability" ∨ name = "conditions"
  · rw [if_pos (by simpa using hconditions)] at h
    obtain ⟨hext, ht⟩ := hlist (by rcases hconditions with rfl | rfl <;> simp [listWords])
    exact effect_of_listBlock hext ht hnested.conditions.appends h
  rw [if_neg (by simpa using hconditions)] at h
  by_cases hfilters : name = "filters" ∨ name = "preferFilters"
  · rw [if_pos (by simpa using hfilters)] at h
    obtain ⟨hext, ht⟩ := hlist (by rcases hfilters with rfl | rfl <;> simp [listWords])
    exact effect_of_listBlock hext ht hnested.filters.appends h
  rw [if_neg (by simpa using hfilters)] at h
  by_cases hmutations : name = "mutations" ∨ name = "effects" ∨ name = "stateUpdates"
  · rw [if_pos (by simpa [or_assoc] using hmutations)] at h
    obtain ⟨hext, ht⟩ := hlist (by rcases hmutations with rfl | rfl | rfl <;> simp [listWords])
    exact effect_of_listBlock hext ht hnested.mutations.appends h
  rw [if_neg (by simpa [or_assoc] using hmutations)] at h
  by_cases hselection : name = "selection" ∨ name = "actor" ∨ name = "target"
  · rw [if_pos (by simpa [or_assoc] using hselection)] at h
    have ht : declares? t = none := by
      rw [hcase]
      rcases hselection with rfl | rfl | rfl <;> rfl
    have hset (o : Record) := appends_setField name (.obj o) t.span r
    obtain ⟨_, s₁, first, more, -, h₁, rfl⟩ :=
      h.split_seq (mirrors_rejectLabels name labels).appends fun _ =>
      (hnested.selection []).appends.bind hset
    obtain ⟨o, s₂, second, last, -, h₂, rfl⟩ := h₁.split_seq (hnested.selection []).appends hset
    exact (effect_of_setField ht h₂).mono (by simp)
  rw [if_neg (by simpa [or_assoc] using hselection)] at h
  by_cases hlet : name = "let" ∨ name = "var" ∨ name = "variable"
  · rw [if_pos (by simpa [or_assoc] using hlet)] at h
    refine effect_of_declaration ?_ h
    rw [hcase]
    rcases hlet with rfl | rfl | rfl <;> rfl
  rw [if_neg (by simpa [or_assoc] using hlet)] at h
  by_cases hcreate : name = "create"
  · rw [if_pos hcreate] at h
    exact effect_of_creation (by simp [hcase, declares?, hcreate]) h
  rw [if_neg hcreate] at h
  obtain ⟨o, s₁, first, more, -, hobject, rfl⟩ := h.split_seq (hnested.fields []).appends fun o =>
    (mirrors_objectBlock name labels (.obj o) t.span r).appends
  exact (effect_of_objectBlock (hcase ▸ declares?_block hcreate hlet) hobject).mono
    (List.subset_append_right first more)

theorem effect_of_attempt {t : Statement} {key : String} (hext : extends? t = some key)
    {α : Type} {f : α → α} {m m' : Attempt α} (hm : Tries f m m') {k : Option α → CompileM Record}
    {entry : α → Json} {r r' : Record} (hsome : ∀ a, k (some a) = pure (r.extend key [entry a]))
    (hnone : k none = pure r) {s s' : Scope} {new : List Diagnostic}
    (h : Runs (m.run >>= k) s r' s' new) : Effect t r new r' := by
  have hk : ∀ a, Appends (k a) := by
    intro a
    cases a with
    | none => exact hnone ▸ appends_pure r
    | some a => exact hsome a ▸ appends_pure _
  obtain ⟨a, s₁, first, more, ha, hrest, rfl⟩ := h.split_seq hm.run.appends hk
  cases a with
  | none =>
    rw [hnone] at hrest
    obtain ⟨rfl, -, -⟩ := (runs_pure r s₁).eq hrest
    obtain ⟨d, hd, herror⟩ := hm.error_of_runs ha
    exact .kept (.inl ⟨d, List.mem_append_left _ hd, herror⟩)
  | some a =>
    rw [hsome a] at hrest
    obtain ⟨rfl, -, -⟩ := (runs_pure _ s₁).eq hrest
    rw [Record.extend_eq_set]
    exact .items key [entry a] hext fun _ => ⟨entry a, rfl⟩

/-- The one place that says what a statement of a body does to the record. -/
theorem effect_of_part {t : Statement} {r r' : Record} {s s' : Scope} {new : List Diagnostic}
    (h : Runs (part (t, t.nested) r) s r' s' new) : Effect t r new r' := by
  unfold part at h
  dsimp only at h
  cases t with
  | field key quoted labels value span =>
    cases quoted with
    | true => exact effect_of_setField rfl h
    | false => exact effect_of_field rfl h
  | block name quoted labels body span =>
    cases quoted with
    | true =>
      obtain ⟨o, s₁, first, more, -, hobject, rfl⟩ :=
        h.split_seq ((Statement.mirrored_nested _).fields []).appends fun o =>
          (mirrors_objectBlock name labels (.obj o) span r).appends
      exact (effect_of_objectBlock rfl hobject).mono (List.subset_append_right first more)
    | false => exact effect_of_block rfl h
  | rel key label kind source target values span =>
    have hm := Statement.tries_relationship false key label kind source target values span
    have hext : extends? (.rel key label kind source target values span) = some "relationships" := rfl
    exact effect_of_attempt hext hm (fun _ => rfl) rfl h
  | mutate key subject change amount span =>
    have hnested := (Statement.mutate key subject change amount span).mirrored_nested
    have hm := Mutation.tries_compile (.mutate key subject change amount span) hnested
    have hext : extends? (.mutate key subject change amount span) = some "stateUpdates" := rfl
    exact effect_of_attempt hext hm (fun _ => rfl) rfl h
  | predicate => exact effect_of_report rfl h
  | within | origin => exact effect_of_report rfl h
  | bare value span =>
    cases value with
    | name name _ =>
      dsimp only at h
      split at h
      · exact effect_of_report rfl h
      · exact effect_of_setField rfl h
    | _ => exact effect_of_report rfl h

/-! ## Declarations in a body -/

theorem appends_part (t : Statement) (r : Record) : Appends (part (t, t.nested) r) :=
  (mirrors_part (t, t.nested) t.mirrored_nested r).appends

theorem appends_fields (body : List Statement) (r : Record) :
    Appends (fields (Statement.children body) r) := by
  refine appends_thread ?_ r
  intro c hc r
  rw [Statement.children_eq_map] at hc
  obtain ⟨t, -, rfl⟩ := List.mem_map.1 hc
  exact appends_part t r

theorem fields_append (before after : List Statement) (r : Record) :
    fields (Statement.children (before ++ after)) r =
      fields (Statement.children before) r >>= fields (Statement.children after) := by
  simp only [fields, Statement.children_eq_map, List.map_append, thread_append]
  rfl

theorem fields_cons (t : Statement) (body : List Statement) (r : Record) :
    fields (Statement.children (t :: body)) r = part (t, t.nested) r >>=
      fields (Statement.children body) := by
  simp only [fields, Statement.children_eq_map, List.map_cons, thread]
  rfl

/-- One more entry under the field of a declaration: an item of a list, or a
variable, which may replace one of its name over a warning. -/
inductive Contributes (r : Record) (new : List Diagnostic) : String → Record → Prop
  | item (slot : String) (x : Json) (h : slot ≠ "variables") :
      Contributes r new slot (r.set slot (.arr (r.itemsOf slot ++ [x])))
  | variable (key : String) (value : Json) (held : Record)
      (hheld : (r.get? "variables").getD (.obj []) = .obj held)
      (h : held.has key = true → ∃ span, (Problem.duplicateVariable key).reported span ∈ new) :
      Contributes r new "variables" (r.set "variables" (.obj (held.set key value)))

theorem Effect.contributes {t : Statement} {r r' : Record} {new : List Diagnostic}
    (h : Effect t r new r') {slot : String} (ht : declares? t = some slot)
    (hnamed : isUnnamed t = false) : Contributes r new slot r' ∨ ∃ d ∈ new, d.isError = true := by
  cases h with
  | kept h =>
    rcases h with herror | hunnamed
    · exact .inr herror
    · rw [hnamed] at hunnamed
      cases hunnamed
  | field key value hnone | entry name key value held hnone =>
    rw [ht] at hnone
    cases hnone
  | «variable» key value held hslot hheld h =>
    obtain rfl : slot = "variables" := Option.some.inj (ht.symm.trans hslot)
    exact .inl (.variable key value held hheld h)
  | items key xs hext h =>
    simp only [extends?, ht] at hext
    by_cases hslot : slot = "variables"
    · rw [if_pos hslot] at hext
      cases hext
    · rw [if_neg hslot] at hext
      obtain rfl : slot = key := Option.some.inj hext
      obtain ⟨x, rfl⟩ := h ht
      exact .inl (.item slot x hslot)

theorem runs_unnamed {t : Statement} (h : isUnnamed t = true) (r : Record) (s : Scope) :
    Runs (part (t, t.nested) r) s r s [] := by
  unfold isUnnamed at h
  split at h
  · next body span =>
    exact runs_silent fun _ => rfl
  · cases h

/-- A declaration contributes or complains. A body is compiled as what stands
before the declaration, the declaration and what stands behind it; and the
declaration adds one entry to the field it is for, or it reports an error. The one
that does neither is a block `create` without a name, which leaves no trace. -/
theorem declarations_contribute (before after : List Statement) {t : Statement} {slot : String}
    (ht : declares? t = some slot) (r : Record) (s : Scope) :
    ∃ r₁ s₁ new₁ r₂ s₂ new₂ r₃ s₃ new₃, Runs (fields (Statement.children before) r) s r₁ s₁ new₁ ∧
      Runs (part (t, t.nested) r₁) s₁ r₂ s₂ new₂ ∧
      Runs (fields (Statement.children after) r₂) s₂ r₃ s₃ new₃ ∧
      Runs (fields (Statement.children (before ++ t :: after)) r) s r₃ s₃ (new₁ ++ (new₂ ++ new₃)) ∧
      if isUnnamed t then r₂ = r₁ ∧ s₂ = s₁ ∧ new₂ = []
      else Contributes r₁ new₂ slot r₂ ∨ ∃ d ∈ new₂, d.isError = true := by
  obtain ⟨r₁, s₁, new₁, h₁⟩ := appends_fields before r s
  obtain ⟨r₂, s₂, new₂, h₂⟩ := appends_part t r₁ s₁
  obtain ⟨r₃, s₃, new₃, h₃⟩ := appends_fields after r₂ s₂
  refine ⟨r₁, s₁, new₁, r₂, s₂, new₂, r₃, s₃, new₃, h₁, h₂, h₃, ?_, ?_⟩
  · rw [fields_append]
    refine h₁.bind ?_
    rw [fields_cons]
    exact h₂.bind h₃
  · by_cases hunnamed : isUnnamed t = true
    · rw [if_pos hunnamed]
      obtain ⟨hr, hs, hnew⟩ := (runs_unnamed hunnamed r₁ s₁).eq h₂
      exact ⟨hr.symm, hs.symm, hnew.symm⟩
    · rw [if_neg hunnamed]
      exact (effect_of_part h₂).contributes ht (by simpa using hunnamed)

/-- The line `create $hero kind npc` behind the field `creation x`. -/
theorem declarations_contribute_hero :
    let name (word : String) : Value := .name word .nowhere
    let creation : Statement := .field "creation" false [] (name "x") .nowhere
    let hero : Statement := .field "create" false [name "$hero", name "kind"] (name "npc") .nowhere
    let before : Record := [textField "creation" "x"]
    declares? hero = some "creation" ∧
      Runs (fields (Statement.children [creation]) []) .empty before .empty [] ∧
      ∃ r s new, Runs (part (hero, hero.nested) before) .empty r s new ∧
      Contributes before new "creation" r := by
  intro name creation hero before
  have hbefore : Runs (fields (Statement.children [creation]) []) .empty before .empty [] :=
    runs_silent fun _ => rfl
  have hrun : Runs (part (hero, hero.nested) before) .empty
      [("creation", .arr [.obj [textField "entityRef" "$hero", textField "kind" "npc"]])]
        ⟨["hero"]⟩ [] := by
    apply runs_silent
    intro ds
    simp only [hero, name]
    rfl
  obtain ⟨r₁, s₁, new₁, r₂, s₂, new₂, _, _, _, h₁, h₂, -, -, hhero⟩ :=
    declarations_contribute [creation] [] (t := hero) rfl [] .empty
  obtain ⟨rfl, rfl, -⟩ := hbefore.eq h₁
  obtain ⟨rfl, rfl, rfl⟩ := hrun.eq h₂
  refine ⟨rfl, hbefore, _, _, [], hrun, ?_⟩
  rcases hhero with hcontributes | ⟨d, hd, -⟩
  · exact hcontributes
  · cases hd

end Body

end Worldbook
