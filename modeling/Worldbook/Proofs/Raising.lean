import Mathlib.Data.List.Forall2
import Worldbook.Proofs.Arguments
import Worldbook.Proofs.Contributions

/-!
# Compiling with more bindings

A bare name where a reference may stand gains a `$` once it is bound.
`Json.Raised` relates two values that differ in nothing else, and `Lifts` says
of a step that what it gives with more bindings is so related to what it gives
with fewer. Everything that compiles is put together from steps that lift.
-/

namespace Worldbook

open CompileM

/-! ## Bare names -/

mutual

/-- The bare names of a value that may be references: its own, or those of the items of an array. -/
def Value.bareNames : Value → List String
  | .name text _ => [text]
  | .array items _ => Value.bareNamesAll items
  | _ => []

def Value.bareNamesAll : List Value → List String
  | [] => []
  | v :: rest => v.bareNames ++ Value.bareNamesAll rest

end

def Statement.referable : Statement → List Value
  | .rel _ _ _ source target values _ => source :: target :: values
  | .origin source _ _ => [source]
  | s => s.positional

mutual

def Statement.bareNames : Statement → List String
  | .block _ _ labels body _ => Value.bareNamesAll labels ++ Statement.bareNamesAll body
  | s => Value.bareNamesAll s.referable

def Statement.bareNamesAll : List Statement → List String
  | [] => []
  | s :: rest => s.bareNames ++ Statement.bareNamesAll rest

end

/-! ## Values that differ in references -/

mutual

/-- The second value is the first, but for bare names in the places of
references, which may have gained the `$` that they were written without. The
flag says whether the value itself is in such a place. -/
inductive Json.Raised (names : List String) : Bool → Json → Json → Prop
  | same (place : Bool) (j : Json) : Json.Raised names place j j
  | bound (token : String) (h : token ∈ names) (hbare : Scope.hasSigil token = false) :
      Json.Raised names true (.str token) (.str (Scope.referenceTo token))
  | arr {place : Bool} {xs ys : List Json} (h : Json.RaisedItems names place xs ys) :
      Json.Raised names place (.arr xs) (.arr ys)
  | obj {place : Bool} {r r' : Record} (h : Json.RaisedMembers names r r') :
      Json.Raised names place (.obj r) (.obj r')

inductive Json.RaisedItems (names : List String) : Bool → List Json → List Json → Prop
  | nil {place : Bool} : Json.RaisedItems names place [] []
  | cons {place : Bool} {x y : Json} {xs ys : List Json} (h : Json.Raised names place x y)
      (hs : Json.RaisedItems names place xs ys) : Json.RaisedItems names place (x :: xs) (y :: ys)

inductive Json.RaisedMembers (names : List String) : List (String × Json) → List (String × Json) → Prop
  | nil : Json.RaisedMembers names [] []
  | cons (key : String) {v w : Json} {r r' : List (String × Json)}
      (h : Json.Raised names (isReferenceKey key) v w) (hs : Json.RaisedMembers names r r') :
      Json.RaisedMembers names ((key, v) :: r) ((key, w) :: r')

end

abbrev Record.Raised (names : List String) (r r' : Record) : Prop := Json.RaisedMembers names r r'

section
variable {names : List String} {r r' : Record} {v w : Json}

theorem Json.raisedItems_iff {place : Bool} {xs ys : List Json} :
    Json.RaisedItems names place xs ys ↔ List.Forall₂ (Json.Raised names place) xs ys := by
  constructor
  · intro h
    induction xs generalizing ys with
    | nil =>
      cases h
      exact .nil
    | cons x xs ih =>
      cases h with
      | cons h hs => exact .cons h (ih hs)
  · intro h
    induction h with
    | nil => exact .nil
    | cons h _ ih => exact .cons h ih

theorem Json.raisedMembers_iff {r r' : Record} : Json.RaisedMembers names r r' ↔
    List.Forall₂ (fun m m' => m'.1 = m.1 ∧ Json.Raised names (isReferenceKey m.1) m.2 m'.2) r r' := by
  constructor
  · intro h
    induction r generalizing r' with
    | nil =>
      cases h
      exact .nil
    | cons m r ih =>
      cases h with
      | cons key h hs => exact .cons ⟨rfl, h⟩ (ih hs)
  · intro h
    induction h with
    | nil => exact .nil
    | @cons m m' r r' h _ ih =>
      obtain ⟨key, v⟩ := m
      obtain ⟨_, w⟩ := m'
      obtain ⟨rfl, h⟩ := h
      exact .cons _ h ih

theorem Json.Raised.refl_items (place : Bool) (xs : List Json) :
    List.Forall₂ (Json.Raised names place) xs xs :=
  List.forall₂_same.2 fun x _ => .same place x

theorem Json.Raised.array? {place : Bool} (h : Json.Raised names place v w) :
    (v.array? = none ∧ w.array? = none) ∨
      ∃ xs ys, v.array? = some xs ∧ w.array? = some ys ∧
      List.Forall₂ (Json.Raised names place) xs ys := by
  cases h with
  | same =>
    cases hv : v.array? with
    | none => exact .inl ⟨rfl, rfl⟩
    | some xs => exact .inr ⟨xs, xs, rfl, rfl, Json.Raised.refl_items place xs⟩
  | bound token => exact .inl ⟨rfl, rfl⟩
  | arr h => exact .inr ⟨_, _, rfl, rfl, Json.raisedItems_iff.1 h⟩
  | obj => exact .inl ⟨rfl, rfl⟩

theorem Record.Raised.refl (r : Record) : r.Raised names r := by
  induction r with
  | nil => exact .nil
  | cons m r ih => exact .cons m.1 (.same _ m.2) ih

theorem Json.Raised.object? {place : Bool} (h : Json.Raised names place v w) :
    (v.object? = none ∧ w.object? = none) ∨
      ∃ r r', v = .obj r ∧ w = .obj r' ∧ Record.Raised names r r' := by
  cases h with
  | same =>
    cases hv : v.object? with
    | none => exact .inl ⟨rfl, rfl⟩
    | some r =>
      rw [Json.object?_eq_some] at hv
      exact .inr ⟨r, r, hv, hv, .refl r⟩
  | bound token => exact .inl ⟨rfl, rfl⟩
  | arr => exact .inl ⟨rfl, rfl⟩
  | obj h => exact .inr ⟨_, _, rfl, rfl, h⟩

namespace Record.Raised

theorem append {s s' : Record} (h : r.Raised names r') (h' : s.Raised names s') :
    (r ++ s).Raised names (r' ++ s') := by
  induction r generalizing r' with
  | nil =>
    cases h
    exact h'
  | cons m r ih =>
    cases h with
    | cons key hv hs => exact .cons key hv (ih hs)

theorem singleton (key : String) (hv : Json.Raised names (isReferenceKey key) v w) :
    Record.Raised names [(key, v)] [(key, w)] := .cons key hv .nil

theorem get? (h : r.Raised names r') (key : String) : (r.get? key = none ∧ r'.get? key = none) ∨
    ∃ v w, r.get? key = some v ∧ r'.get? key = some w ∧ Json.Raised names (isReferenceKey key) v w := by
  induction r generalizing r' with
  | nil =>
    cases h
    exact .inl ⟨rfl, rfl⟩
  | cons m r ih =>
    cases h with
    | cons k hv hs =>
      rw [Record.get?_cons, Record.get?_cons]
      by_cases hk : k = key
      · subst hk
        exact .inr ⟨_, _, if_pos rfl, if_pos rfl, hv⟩
      · rw [if_neg hk, if_neg hk]
        exact ih hs

theorem has (h : r.Raised names r') (key : String) : r'.has key = r.has key := by
  unfold Record.has
  obtain ⟨hr, hr'⟩ | ⟨v, w, hr, hr', -⟩ := h.get? key
  · rw [hr, hr']
  · rw [hr, hr']
    rfl

theorem set (h : r.Raised names r') (key : String) (hv : Json.Raised names (isReferenceKey key) v w) :
    (r.set key v).Raised names (r'.set key w) := by
  induction r generalizing r' with
  | nil =>
    cases h
    exact singleton key hv
  | cons m r ih =>
    cases h with
    | cons k hm hs =>
      unfold Record.set
      by_cases hk : k = key
      · subst hk
        rw [if_pos rfl, if_pos rfl]
        exact .cons k hv hs
      · rw [if_neg hk, if_neg hk]
        exact .cons k hm (ih hs)

/-- The items of a list, under a key that is none of a reference. -/
theorem extend (h : r.Raised names r') {key : String} (hkey : isReferenceKey key = false)
    {xs ys : List Json} (hx : List.Forall₂ (Json.Raised names false) xs ys) :
    (r.extend key xs).Raised names (r'.extend key ys) := by
  have hitems : List.Forall₂ (Json.Raised names false) (r.itemsOf key) (r'.itemsOf key) := by
    unfold Record.itemsOf
    obtain ⟨hr, hr'⟩ | ⟨v, w, hr, hr', hv⟩ := h.get? key
    · rw [hr, hr']
      exact .nil
    · rw [hkey] at hv
      rw [hr, hr', Option.bind_some, Option.bind_some]
      obtain ⟨hv, hw⟩ | ⟨xs, ys, hv, hw, hall⟩ := hv.array?
      · rw [hv, hw]
        exact .nil
      · rw [hv, hw]
        exact hall
  rw [Record.extend_eq_set, Record.extend_eq_set]
  refine h.set key ?_
  rw [hkey]
  exact .arr (Json.raisedItems_iff.2 (List.rel_append hitems hx))

end Record.Raised

end

/-! ## Bindings -/

namespace Scope

theorem isBound_iff {s : Scope} {base : String} : s.isBound base = true ↔ base ∈ s.names := by
  unfold isBound
  exact List.contains_iff_mem

theorem declare_names (s : Scope) (name : String) :
    (s.declare name).1.names = if s.isBound (baseOf name) then s.names else s.names ++
      [baseOf name] := by
  unfold declare
  dsimp only
  split <;> rfl

theorem grows_declare (s : Scope) (name : String) : s.names <+: (s.declare name).1.names := by
  rw [declare_names]
  split
  · exact List.prefix_refl _
  · exact List.prefix_append _ _

theorem mem_declare {s : Scope} {name base : String} :
    base ∈ (s.declare name).1.names ↔ base ∈ s.names ∨ base = baseOf name := by
  rw [declare_names]
  split
  · next h =>
    rw [isBound_iff] at h
    constructor
    · exact .inl
    · rintro (hmem | rfl)
      · exact hmem
      · exact h
  · rw [List.mem_append, List.mem_singleton]

theorem declare_subset {s t : Scope} (h : s.names ⊆ t.names) (name : String) :
    (s.declare name).1.names ⊆ (t.declare name).1.names := by
  intro base hbase
  rw [mem_declare] at hbase ⊢
  exact hbase.imp_left fun hmem => h hmem

/-- More bindings find the same reference, or one that was not found before. -/
theorem require?_subset {s t : Scope} (h : s.names ⊆ t.names) {token found : String}
    (hs : s.require? token = some found) : t.require? token = some found := by
  unfold require? at hs ⊢
  split at hs
  · next hsigil =>
    rw [if_pos hsigil]
    exact hs
  · next hsigil =>
    rw [if_neg hsigil]
    split at hs
    · next hbound =>
      have hmem : stem token ∈ t.names := h (isBound_iff.1 hbound)
      rw [if_pos (isBound_iff.2 hmem)]
      exact hs
    · cases hs

theorem resolve_subset {s t : Scope} (h : s.names ⊆ t.names) (token : String) :
    t.resolve token = s.resolve token ∨
      (hasSigil token = false ∧ s.resolve token = token ∧ t.resolve token = referenceTo token) := by
  unfold resolve
  cases hs : s.require? token with
  | some found =>
    rw [require?_subset h hs]
    exact .inl rfl
  | none =>
    cases ht : t.require? token with
    | none => exact .inl rfl
    | some found =>
      unfold require? at hs ht
      split at hs
      · cases hs
      · next hsigil =>
        refine .inr ⟨Bool.eq_false_iff.2 hsigil, rfl, ?_⟩
        rw [if_neg hsigil] at ht
        split at ht
        · exact (Option.some.inj ht).symm
        · cases ht

end Scope

mutual

/-- A quoted text where a reference may stand is no reference, whatever is bound. -/
theorem Value.resolved_of_no_bareNames (s : Scope) :
    ∀ v : Value, v.bareNames = [] → v.resolved s = v.literal
  | .name token _, hv => by simp [Value.bareNames] at hv
  | .array items _, hv => congrArg Json.arr (Value.resolvedItems_of_no_bareNames s items hv)
  | .str _ _, _ | .num _ _, _ | .bool _ _, _ | .null _, _ | .object _ _, _ | .call _ _ _, _ => rfl

theorem Value.resolvedItems_of_no_bareNames (s : Scope) :
    ∀ vs : List Value, Value.bareNamesAll vs = [] → Value.resolvedItems s vs = Value.literals vs
  | [], _ => rfl
  | v :: vs, hvs => by
    obtain ⟨hv, hvs⟩ := List.append_eq_nil_iff.1 hvs
    rw [Value.resolvedItems, Value.literals, Value.resolved_of_no_bareNames s v hv,
      Value.resolvedItems_of_no_bareNames s vs hvs]

end

mutual

theorem raised_resolved {names : List String} {s t : Scope} (h : s.names ⊆ t.names) :
    ∀ v : Value, v.bareNames ⊆ names → Json.Raised names true (v.resolved s) (v.resolved t)
  | .name token _, hv => by
    have hmem : token ∈ names := hv (List.mem_singleton_self token)
    simp only [Value.resolved]
    obtain heq | ⟨hbare, hs, ht⟩ := Scope.resolve_subset h token
    · rw [heq]
      exact .same _ _
    · rw [hs, ht]
      exact .bound token hmem hbare
  | .array items _, hv => .arr (raised_resolvedItems h items hv)
  | .str _ _, _ | .num _ _, _ | .bool _ _, _ | .null _, _ | .object _ _, _ | .call _ _ _, _ => .same _ _

theorem raised_resolvedItems {names : List String} {s t : Scope} (h : s.names ⊆ t.names) :
    ∀ vs : List Value, Value.bareNamesAll vs ⊆ names →
      Json.RaisedItems names true (Value.resolvedItems s vs) (Value.resolvedItems t vs)
  | [], _ => .nil
  | v :: vs, hvs => by
    rw [Value.bareNamesAll, List.append_subset] at hvs
    exact .cons (raised_resolved h v hvs.1) (raised_resolvedItems h vs hvs.2)

end

end Worldbook
