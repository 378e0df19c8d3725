import Worldbook.Proofs.Contributions

/-!
# Values set before

A statement of a body changes a value set before it by adding to it, or by a
report that says so. The one exception is a list: a statement that adds items
to a list puts the list in the place of a value that is none, and says nothing.
-/

namespace Worldbook

/-- The second value is the first with items added to a list or keys to an object. -/
inductive Json.Grows : Json → Json → Prop
  | same (v : Json) : Grows v v
  | items (held more : List Json) : Grows (.arr held) (.arr (held ++ more))
  | keys (held more : Record) (h : ∀ key ∈ Record.keys more, key ∉ Record.keys held) :
      Grows (.obj held) (.obj (held ++ more))

/-- The report says that the value under the key of a record, or a part of it, was set before. -/
inductive Problem.Overwrites (key : String) : Problem → Prop
  | field : Overwrites key (.duplicateKey key)
  | entry (name : String) : Overwrites key (.duplicateEntry name key)
  | variable (name : String) (h : key = "variables") : Overwrites key (.duplicateVariable name)

namespace Json.Grows

theorem trans {u v w : Json} (h : Grows u v) (h' : Grows v w) : Grows u w := by
  cases h with
  | same => exact h'
  | items held more =>
    cases h' with
    | same => exact .items held more
    | items _ more' =>
      rw [List.append_assoc]
      exact .items held (more ++ more')
  | keys held more h =>
    cases h' with
    | same => exact .keys held more h
    | keys _ more' h' =>
      rw [List.append_assoc]
      refine .keys held (more ++ more') ?_
      intro key hkey
      rw [Record.keys_append, List.mem_append] at hkey
      rcases hkey with hkey | hkey
      · exact h key hkey
      · intro hheld
        apply h' key hkey
        rw [Record.keys_append]
        exact List.mem_append_left _ hheld

theorem isList {u v : Json} (h : Grows u v) (hv : v.array? = none) : u.array? = none := by
  cases h with
  | same => exact hv
  | items => cases hv
  | keys => rfl

theorem set {held : Record} {key : String} (h : ¬held.has key = true) (value : Json) :
    Grows (.obj held) (.obj (held.set key value)) := by
  rw [Record.has_iff] at h
  rw [Record.set_of_not_mem h]
  refine .keys held [(key, value)] ?_
  intro k hk
  obtain rfl : k = key := List.mem_singleton.1 hk
  exact h

end Json.Grows

namespace Body

open Json

variable {t : Statement} {r r' : Record} {key : String} {v : Json}

/-- What became of a value under a key, where `new` are reports: it grew, or a report says
that it was set before, or it was no list and a statement put a list in its place. -/
def Stands (t : Statement) (new : List Diagnostic) (key : String) (v v' : Json) : Prop :=
  Grows v v' ∨ (∃ p span, Problem.Overwrites key p ∧ p.reported span ∈ new) ∨
    (extends? t = some key ∧ v.array? = none ∧ ∃ items, v' = .arr items)

theorem Effect.stands {new : List Diagnostic} (h : Effect t r new r') (hv : r.get? key = some v) :
    ∃ v', r'.get? key = some v' ∧ Stands t new key v v' := by
  have hother {k : String} (hk : k ≠ key) (value : Json) :
      ∃ v', (r.set k value).get? key = some v' ∧ Stands t new key v v' := by
    refine ⟨v, ?_, .inl (.same v)⟩
    rw [Record.get?_set, if_neg hk, hv]
  have hself (value : Json) : (r.set key value).get? key = some value := by
    rw [Record.get?_set, if_pos rfl]
  have hadded {k name : String} {value : Json} {held : Record} {p : Problem}
    (hp : Problem.Overwrites k p)
      (hheld : (r.get? k).getD (.obj []) = .obj held)
      (hreported : held.has name = true → ∃ span, p.reported span ∈ new) :
      ∃ v', (r.set k (.obj (held.set name value))).get? key = some v' ∧ Stands t new key v v' := by
    by_cases hk : k = key
    · subst hk
      rw [hv, Option.getD_some] at hheld
      subst hheld
      refine ⟨_, hself _, ?_⟩
      by_cases hname : held.has name = true
      · obtain ⟨span, hd⟩ := hreported hname
        exact .inr (.inl ⟨p, span, hp, hd⟩)
      · exact .inl (.set hname value)
    · exact hother hk _
  cases h with
  | kept => exact ⟨v, hv, .inl (.same v)⟩
  | field k value ht h =>
    by_cases hk : k = key
    · subst hk
      obtain ⟨span, hd⟩ := h (by simp [Record.has, hv])
      exact ⟨value, hself value, .inr (.inl ⟨_, span, .field, hd⟩)⟩
    · exact hother hk value
  | entry k name value held ht hheld h => exact hadded (.entry name) hheld h
  | «variable» name value held ht hheld h => exact hadded (.variable name rfl) hheld h
  | items k xs ht h =>
    by_cases hk : k = key
    · subst hk
      refine ⟨_, hself _, ?_⟩
      cases harray : v.array? with
      | none => exact .inr (.inr ⟨ht, harray, _, rfl⟩)
      | some held =>
        rw [Json.array?_eq_some] at harray
        subst harray
        have hitems : r.itemsOf k = held := by simp [Record.itemsOf, hv, Json.array?]
        rw [hitems]
        exact .inl (.items held xs)
    · exact hother hk _

/-- Without a report a value grows through a body, unless it is no list and a
statement of the body adds items to a list under its key. -/
theorem stands_of_silent {body : List Statement} {s s' : Scope}
    (h : Runs (fields (Statement.children body) r) s r' s' []) (hv : r.get? key = some v) :
    ∃ v', r'.get? key = some v' ∧
    (Grows v v' ∨ v.array? = none ∧ ∃ t ∈ body, extends? t = some key) := by
  induction body generalizing r s v with
  | nil =>
    obtain ⟨rfl, -, -⟩ := (runs_pure r s).eq h
    exact ⟨v, hv, .inl (.same v)⟩
  | cons t body ih =>
    rw [fields_cons] at h
    obtain ⟨r₁, s₁, ht, hbody⟩ := h.of_seq (appends_part t r) (appends_fields body)
    obtain ⟨v₁, hv₁, hstands⟩ := (effect_of_part ht).stands hv
    obtain ⟨v', hv', hmore⟩ := ih hbody hv₁
    refine ⟨v', hv', ?_⟩
    rcases hstands with hgrows | ⟨p, span, -, hd⟩ | ⟨hext, harray, -⟩
    · rcases hmore with hgrows' | ⟨harray, u, hu, hext⟩
      · exact .inl (hgrows.trans hgrows')
      · exact .inr ⟨hgrows.isList harray, u, List.mem_cons_of_mem _ hu, hext⟩
    · cases hd
    · exact .inr ⟨harray, t, List.mem_cons_self .., hext⟩

/-- No value set before is lost in silence, but for one that is no list where a list is added to.
What a statement does to a value under a key of the record before it is to add to it, or it
reports that it was set before, or the value was no list and a list stands in its place. In a body
that is compiled without a report each value of the record before its last statements has only
been added to at the end, unless it was no list and one of these statements adds to a list. -/
theorem values_stand (before : List Statement) (t : Statement) (after : List Statement) (r : Record)
    (s : Scope) : (∃ r₁ s₁ new₁ r₂ s₂ new₂, Runs (fields (Statement.children before) r) s r₁ s₁ new₁ ∧
      Runs (part (t, t.nested) r₁) s₁ r₂ s₂ new₂ ∧
      ∀ key v, r₁.get? key = some v → ∃ v', r₂.get? key = some v' ∧ Stands t new₂ key v v') ∧
    ∀ r' s', Runs (fields (Statement.children (before ++ after)) r) s r' s' [] →
      ∃ r₁ s₁, Runs (fields (Statement.children before) r) s r₁ s₁ [] ∧
        Runs (fields (Statement.children after) r₁) s₁ r' s' [] ∧
        ∀ key v, r₁.get? key = some v → ∃ v', r'.get? key = some v' ∧
          (Grows v v' ∨ v.array? = none ∧ ∃ u ∈ after, extends? u = some key) := by
  constructor
  · obtain ⟨r₁, s₁, new₁, hbefore⟩ := appends_fields before r s
    obtain ⟨r₂, s₂, new₂, ht⟩ := appends_part t r₁ s₁
    exact ⟨r₁, s₁, new₁, r₂, s₂, new₂, hbefore, ht, fun key v hv => (effect_of_part ht).stands hv⟩
  · intro r' s' h
    rw [fields_append] at h
    obtain ⟨r₁, s₁, hbefore, hafter⟩ := h.of_seq (appends_fields before r) (appends_fields after)
    exact ⟨r₁, s₁, hbefore, hafter, fun key v hv => stands_of_silent hafter hv⟩

/-- The line `create $foe kind npc` behind the line `create $hero kind npc`. -/
theorem values_stand_foe :
    let name (word : String) : Value := .name word .nowhere
    let line (who : String) : Statement :=
      .field "create" false [name who, name "kind"] (name "npc") .nowhere
    let entry (who : String) : Json := .obj [textField "entityRef" who, textField "kind" "npc"]
    ∃ r r' s s', Runs (fields (Statement.children [line "$hero"]) []) .empty r s [] ∧
      Runs (fields (Statement.children ([line "$hero"] ++ [line "$foe"])) []) .empty r' s' [] ∧
      r.get? "creation" = some (.arr [entry "$hero"]) ∧
      ∃ v, r'.get? "creation" = some v ∧ Grows (.arr [entry "$hero"]) v := by
  intro name line entry
  have hboth : Runs (fields (Statement.children ([line "$hero"] ++ [line "$foe"])) []) .empty
      [("creation", .arr [entry "$hero", entry "$foe"])] ⟨["hero", "foe"]⟩ [] := by
    apply runs_silent
    intro ds
    simp only [line, name, entry]
    rfl
  have hone : Runs (fields (Statement.children [line "$hero"]) []) .empty
    [("creation", .arr [entry "$hero"])]
      ⟨["hero"]⟩ [] := by
    apply runs_silent
    intro ds
    simp only [line, name, entry]
    rfl
  obtain ⟨r, s, hbefore, -, hstands⟩ :=
    (values_stand [line "$hero"] (line "$foe") [line "$foe"] [] .empty).2 _ _ hboth
  obtain ⟨rfl, rfl, -⟩ := hone.eq hbefore
  obtain ⟨v, hv, hgrows | ⟨hnone, -⟩⟩ := hstands "creation" (.arr [entry "$hero"]) rfl
  · exact ⟨_, _, _, _, hone, hboth, rfl, v, hv, hgrows⟩
  · cases hnone

end Body

end Worldbook
