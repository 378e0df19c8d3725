import Worldbook.Body.Compile
import Worldbook.Proofs.Shapes

/-!
# Compiling without reports

`Yields` says that a compile step reports nothing and gives a result with a property, whatever the
bindings and reports are before it. `Gives` says so of a step that may give up, which then does not.
-/

namespace Worldbook

/-! ## The two judgements -/

/-- The step reports nothing and its result has the property. -/
def Yields {α : Type} (m : CompileM α) (Q : α → Prop) : Prop :=
  ∀ ctx, ∃ a ctx', m.run ctx = (a, ctx') ∧ ctx'.diagnostics = ctx.diagnostics ∧ Q a

/-- The step reports nothing, does not give up, and its result has the property. -/
def Gives {α : Type} (m : Attempt α) (Q : α → Prop) : Prop :=
  Yields m.run fun r => ∃ a, r = some a ∧ Q a

section
variable {α β : Type}

theorem Yields.imp {m : CompileM α} {P Q : α → Prop} (h : Yields m P) (hpq : ∀ a, P a → Q a) :
    Yields m Q :=
  fun ctx => let ⟨a, ctx', hm, hd, hp⟩ := h ctx; ⟨a, ctx', hm, hd, hpq a hp⟩

theorem Yields.and {m : CompileM α} {P Q : α → Prop} (hp : Yields m P) (hq : Yields m Q) :
    Yields m fun a => P a ∧ Q a := by
  intro ctx
  obtain ⟨a, ctx', hm, hd, hP⟩ := hp ctx
  obtain ⟨a', ctx'', hm', -, hQ⟩ := hq ctx
  rw [hm] at hm'
  cases hm'
  exact ⟨a, ctx', hm, hd, hP, hQ⟩

theorem yields_pure {a : α} {Q : α → Prop} (h : Q a) :
    Yields (pure a) Q := fun ctx => ⟨a, ctx, rfl, rfl, h⟩

theorem Yields.bind {m : CompileM α} {f : α → CompileM β} {P : α → Prop} {Q : β → Prop}
    (hm : Yields m P) (hf : ∀ a, P a → Yields (f a) Q) : Yields (m >>= f) Q := by
  intro ctx
  obtain ⟨a, ctx', hrun, hd, hp⟩ := hm ctx
  obtain ⟨b, ctx'', hrun', hd', hq⟩ := hf a hp ctx'
  refine ⟨b, ctx'', ?_, hd'.trans hd, hq⟩
  rw [StateT.run_bind, hrun]
  exact hrun'

theorem Gives.imp {m : Attempt α} {P Q : α → Prop} (h : Gives m P) (hpq : ∀ a, P a → Q a) : Gives m Q :=
  Yields.imp h fun _ ⟨a, hr, hp⟩ => ⟨a, hr, hpq a hp⟩

theorem Gives.and {m : Attempt α} {P Q : α → Prop} (hp : Gives m P) (hq : Gives m Q) :
    Gives m fun a => P a ∧ Q a := by
  refine (Yields.and hp hq).imp ?_
  rintro _ ⟨⟨a, rfl, hP⟩, b, hb, hQ⟩
  cases hb
  exact ⟨a, rfl, hP, hQ⟩

theorem gives_pure {a : α} {Q : α → Prop} (h : Q a) : Gives (pure a) Q := yields_pure ⟨a, rfl, h⟩

theorem Gives.bind {m : Attempt α} {f : α → Attempt β} {P : α → Prop} {Q : β → Prop} (hm : Gives m P)
    (hf : ∀ a, P a → Gives (f a) Q) : Gives (m >>= f) Q := by
  rw [Gives, OptionT.run_bind]
  refine Yields.bind hm ?_
  rintro _ ⟨a, rfl, hp⟩
  exact hf a hp

theorem gives_lift {m : CompileM α} {Q : α → Prop} (h : Yields m Q) : Gives (liftM m) Q := by
  have hrun : (liftM m : Attempt α).run = some <$> m := by
    exact OptionT.run_monadLift m
  rw [Gives, hrun, ← bind_pure_comp]
  exact h.bind fun a ha => yields_pure ⟨a, rfl, ha⟩

theorem yields_run {m : Attempt α} {Q : α → Prop} (h : Gives m Q) {f : Option α → CompileM β}
    {R : β → Prop} (hf : ∀ a, Q a → Yields (f (some a)) R) : Yields (m.run >>= f) R := by
  refine Yields.bind h ?_
  rintro _ ⟨a, rfl, ha⟩
  exact hf a ha

end

namespace CompileM

theorem yields_orElseKeep {σ : Type} {attempt : Attempt σ} {state : σ} {Q : σ → Prop}
    (h : Gives attempt Q) : Yields (orElseKeep attempt state) Q :=
  yields_run h fun _ ha => yields_pure ha

theorem yields_thread_nil {α σ : Type} {step : α → σ → CompileM σ} {state : σ} {Q : σ → Prop}
    (h : Q state) : Yields (thread step [] state) Q := yields_pure h

theorem yields_thread_cons {α σ : Type} {step : α → σ → CompileM σ} {x : α} {xs : List α} {state : σ}
    {P Q : σ → Prop} (h : Yields (step x state) P) (hmore : ∀ s, P s → Yields (thread step xs s) Q) :
    Yields (thread step (x :: xs) state) Q := Yields.bind h hmore

theorem thread_append {α σ : Type} (step : α → σ → CompileM σ) (xs ys : List α) (state : σ) :
    thread step (xs ++ ys) state = thread step xs state >>= thread step ys := by
  induction xs generalizing state with
  | nil => rfl
  | cons x xs ih =>
    simp only [List.cons_append, thread, ih, bind_assoc]

end CompileM

/-! ## Values that are read as themselves -/

namespace Value

theorem Spells.cases_str {v : Value} {s : String} (h : v.Spells (.str s)) :
    ∃ span, v = .str s span ∨ v = .name s span := by
  have hl := h.literal
  cases v with
  | str text span => exact ⟨span, .inl (by cases hl; rfl)⟩
  | name text span => exact ⟨span, .inr (by cases hl; rfl)⟩
  | num n span =>
    simp only [Value.literal, Json.ofNumber] at hl
    split at hl <;> cases hl
  | _ => cases hl

theorem Spells.text? {v : Value} {s : String} (h : v.Spells (.str s)) : v.text? = some s := by
  obtain ⟨span, rfl | rfl⟩ := h.cases_str <;> rfl

theorem Spells.number? {v : Value} {n : Number} (h : v.Spells (.num n)) :
    v.number? = some n.reread := by
  obtain ⟨span, rfl⟩ := h.num
  rfl

theorem Spells.isFinite {v : Value} {n : Number} (h : v.Spells (.num n)) :
    n.reread.isFinite = true := by
  obtain ⟨span, rfl⟩ := h.num
  have := h.overflows
  rw [Value.overflows] at this
  by_contra hf
  rw [if_neg hf] at this
  cases this

theorem Names.isWord {v : Value} {w : String} (h : v.Names w) (x : String) :
    v.isWord x = decide (w = x) := by
  obtain ⟨span, rfl⟩ := h
  rw [Value.isWord, name?, Bool.eq_iff_iff]
  simp

theorem Names.text? {v : Value} {w : String} (h : v.Names w) : v.text? = some w := by
  obtain ⟨span, rfl⟩ := h
  rfl

/-- A value that is no reserved word is not taken for one. -/
theorem Spells.not_isWord {v : Value} {j : Json} (h : v.Spells j) {w : String}
    (hw : isReserved w = true) : v.isWord w = false := by
  rw [Bool.eq_false_iff]
  intro hv
  rw [h.word w hv] at hw
  cases hw

end Value

theorem Json.ofNumber_of_isFinite {n : Number} (h : n.isFinite = true) : Json.ofNumber n = .num n :=
  if_pos h

namespace CompileM

theorem reference_eq {v : Value} {j : Json} (h : v.Refers j) : reference v = pure j.reread := by
  simp only [reference, h.resolved]
  rfl

theorem requiredReference_eq {v : Value} {s : String} (h : v.Refers (.str s)) :
    requiredReference v = pure (.str s) := by
  obtain ⟨span, rfl | rfl⟩ := h.cases_str
  · rfl
  · -- in a scope that binds its stem, a name without a `$` would get one
    have hs : Scope.hasSigil s = true := by
      have hr := h.resolved ⟨[Scope.stem s]⟩
      simp only [Value.resolved, Json.reread, Json.str.injEq] at hr
      by_contra hs
      simp only [Scope.resolve, Scope.require?, hs, if_false, Scope.isBound, List.contains_cons,
        beq_self_eq_true, Bool.true_or, if_true, Option.getD_some, Scope.referenceTo] at hr
      have := congrArg (fun t : String => t.toList.length) hr
      simp at this
    simp only [requiredReference, Scope.require?, hs, if_true]
    rfl

theorem fieldValue_eq {key : String} {v : Value} {j : Json} (h : v.SpellsUnder key j) :
    fieldValue key v = pure j.reread := by
  simp only [fieldValue, h.underKey]
  rfl

theorem setField_eq {key : String} {value : Json} {span : Span} {r : Record} (h : key ∉ r.keys) :
    setField key value span r = pure (r ++ [(key, value)]) := by
  simp only [setField, Record.has_eq_false.2 h, Bool.false_eq_true, if_false, Record.set_of_not_mem h]

theorem referenceTo_baseOf {name : String} (h : Scope.hasSigil name = true) :
    Scope.referenceTo (Scope.baseOf name) = name := by
  simp only [Scope.hasSigil, decide_eq_true_eq] at h
  apply String.toList_injective
  rw [Scope.baseOf]
  split
  · next rest hrest => simp [Scope.referenceTo, hrest]
  · next hne =>
    cases hl : name.toList with
    | nil => rw [hl] at h; cases h
    | cons c rest =>
      rw [hl] at h
      cases h
      exact absurd hl (hne rest)

theorem yields_declare {name : String} (h : Scope.hasSigil name = true) :
    Yields (declare name) (· = name) :=
  fun _ => ⟨_, _, rfl, rfl, referenceTo_baseOf h⟩

theorem yields_aliasField {name : Option String} (h : ∀ s ∈ name, Scope.hasSigil s = true) :
    Yields (aliasField name) (· = optionalText "as" name) := by
  cases name with
  | none => exact yields_pure rfl
  | some s => exact (yields_declare (h s rfl)).bind fun a ha => yields_pure (by rw [ha]; rfl)

end CompileM

/-! ## Arguments -/

namespace Args

variable {word : String} {span : Span} {v : Value} {rest : List Value}

theorem value_cons (what : String) :
    value ⟨word, span, v :: rest⟩ what = pure (v, ⟨word, span, rest⟩) := rfl

theorem text_cons {s : String} (h : v.text? = some s) (what : String) :
    text ⟨word, span, v :: rest⟩ what = pure (s, ⟨word, span, rest⟩) := by
  simp only [text, value_cons, pure_bind, h]

theorem number_cons {n : Number} (h : v.number? = some n) (what : String) :
    number ⟨word, span, v :: rest⟩ what = pure (n, ⟨word, span, rest⟩) := by
  simp only [number, value_cons, pure_bind, h]

theorem finish_nil : finish ⟨word, span, []⟩ = pure () := rfl

theorem text?_cons {s : String} (h : v.text? = some s) :
    text? ⟨word, span, v :: rest⟩ = (some s, ⟨word, span, rest⟩) := by
  simp [text?, h]

theorem value?_nil : value? ⟨word, span, []⟩ = (none, ⟨word, span, []⟩) := rfl

theorem value?_cons : value? ⟨word, span, v :: rest⟩ = (some v, ⟨word, span, rest⟩) := rfl

theorem marker_cons {w : String} (h : v.Names w) (x : String) : marker ⟨word, span, v :: rest⟩ x =
    if w = x then (true, ⟨word, span, rest⟩) else (false, ⟨word, span, v :: rest⟩) := by
  simp only [marker, h.isWord, decide_eq_true_eq]

end Args

/-! ## Optional arguments -/

abbrev Value.Says (s : String) (v : Value) : Prop := v.Spells (.str s)

abbrev Value.Cites (s : String) (v : Value) : Prop := v.Refers (.str s)

theorem forall₂_strings (ss : List String) :
    List.Forall₂ Word (ss.map Written.string) (ss.map Value.Says) := by
  rw [List.forall₂_map_left_iff, List.forall₂_map_right_iff, List.forall₂_same]
  exact fun s _ => word_string s

theorem forall₂_references (ss : List String) :
    List.Forall₂ Word (ss.map Written.reference) (ss.map Value.Cites) := by
  rw [List.forall₂_map_left_iff, List.forall₂_map_right_iff, List.forall₂_same]
  exact fun s _ => word_reference s

def markedValues (w : String) (P : String → Value → Prop) : Option String → List (Value → Prop)
  | some s => [(·.Names w), P s]
  | none => []

theorem forall₂_marked {w : String} {write : String → String} {P : String → Value → Prop}
    (hword : Word w (·.Names w)) (hwrite : ∀ s, Word (write s) (P s)) (t : Option String) :
    List.Forall₂ Word (Written.marked w write t) (markedValues w P t) := by
  cases t with
  | none => exact .nil
  | some s => exact .cons hword (.cons (hwrite s) .nil)

namespace Args

variable {word : String} {span : Span} {vs : List Value}

theorem text?_optional {t : Option String}
    (h : Meets (t.toList.map Value.Says) vs) :
    text? ⟨word, span, vs⟩ = (t, ⟨word, span, []⟩) := by
  cases t with
  | none => cases h; rfl
  | some s =>
    rcases h with _ | ⟨hv, _ | _⟩
    exact text?_cons hv.text?

/-- Two optional texts at the end, of which the second needs the first. -/
theorem text?_optional_two (word : String) (span : Span) {t u : Option String}
    (htu : u.isSome = true → t ≠ none) (h : Meets ((t.toList ++ u.toList).map Value.Says) vs) :
    ∃ a, text? ⟨word, span, vs⟩ = (t, a) ∧ text? a = (u, ⟨word, span, []⟩) := by
  cases t with
  | none =>
    cases u with
    | none => cases h; exact ⟨_, rfl, rfl⟩
    | some s => exact absurd rfl (htu rfl)
  | some s =>
    rcases h with _ | ⟨hv, hvs⟩
    exact ⟨_, text?_cons hv.text?, text?_optional hvs⟩

/-- No value of the list is taken for the marker in front of it. -/
def Apart (w : String) (Rs : List (Value → Prop)) : Prop :=
  ∀ R ∈ Rs.head?, ∀ v, R v → v.isWord w = false

theorem marker_of_apart {w : String} {Rs : List (Value → Prop)} (hw : Apart w Rs)
    (h : Meets Rs vs) : marker ⟨word, span, vs⟩ w = (false, ⟨word, span, vs⟩) := by
  cases h with
  | nil => rfl
  | cons hv _ => simp [marker, hw _ rfl _ hv]

theorem apart_nil (w : String) : Apart w [] := nofun

theorem apart_names {w x : String} (h : x ≠ w) (Rs : List (Value → Prop)) :
    Apart w ((·.Names x) :: Rs) := by
  rintro R ⟨⟩ v hv
  rw [hv.isWord, decide_eq_false h]

theorem apart_markedValues {w x : String} (h : x ≠ w) (P : String → Value → Prop) (t : Option String)
    {Rs : List (Value → Prop)} (hw : Apart w Rs) : Apart w (markedValues x P t ++ Rs) := by
  cases t with
  | none => exact hw
  | some s => exact apart_names h _

theorem markedText_of (word : String) (span : Span) {w : String} {t : Option String}
    {Rs : List (Value → Prop)} (hw : Apart w Rs) (what : String)
    (h : Meets (markedValues w Value.Says t ++ Rs) vs) : ∃ us, Meets Rs us ∧
      markedText ⟨word, span, vs⟩ w what = pure (t, ⟨word, span, us⟩) := by
  cases t with
  | none => exact ⟨vs, h, by simp only [markedText, marker_of_apart hw h]⟩
  | some s =>
    rcases h with _ | ⟨hm, _ | ⟨hv, hus⟩⟩
    exact ⟨_, hus, by simp only [markedText, marker_cons hm, if_true, text_cons hv.text?, pure_bind]⟩

theorem markedValue_of (word : String) (span : Span) {w : String} {P : String → Value → Prop}
    {t : Option String} {Rs : List (Value → Prop)} (hw : Apart w Rs) (what : String)
    (h : Meets (markedValues w P t ++ Rs) vs) : ∃ v us, Option.Rel P t v ∧ Meets Rs us ∧
      markedValue ⟨word, span, vs⟩ w what = pure (v, ⟨word, span, us⟩) := by
  cases t with
  | none => exact ⟨none, vs, .none, h, by simp only [markedValue, marker_of_apart hw h]⟩
  | some s =>
    rcases h with _ | ⟨hm, _ | ⟨hv, hus⟩⟩
    exact ⟨some _, _, .some hv,
      hus, by simp only [markedValue, marker_cons hm, if_true, value_cons, pure_bind]⟩

end Args

namespace Args

variable {word : String} {span : Span} {vs : List Value}

/-- Strings are no arrays, so they stand for themselves. -/
theorem flat_of_says {ss : List String} (h : Meets (ss.map Value.Says) vs) :
    flat ⟨word, span, vs⟩ = vs := by
  rw [Meets, List.forall₂_map_left_iff] at h
  have hall : ∀ v ∈ vs, ∃ s, Value.Says s v := by
    intro v hv
    obtain ⟨i, hi, rfl⟩ := List.getElem_of_mem hv
    exact ⟨_, (List.forall₂_iff_get.1 h).2 i (by rw [h.length_eq]; exact hi) hi⟩
  clear h
  simp only [flat]
  induction vs with
  | nil => rfl
  | cons v vs ih =>
    rw [List.flatMap_cons, ih fun x hx => hall x (List.mem_cons_of_mem _ hx)]
    obtain ⟨s, hs⟩ := hall v (List.mem_cons_self ..)
    obtain ⟨_, rfl | rfl⟩ := hs.cases_str <;> rfl

end Args

theorem Value.literals_of_says {ss : List String} {vs : List Value} (h : Meets (ss.map Value.Says) vs) :
    literals vs = ss.map .str := by
  rw [Meets, List.forall₂_map_left_iff] at h
  induction h with
  | nil => rfl
  | cons hv _ ih => rw [literals, hv.literal, ih]; rfl

theorem Value.says_of_cites {ss : List String} {vs : List Value} (h : Meets (ss.map Value.Cites) vs) :
    Meets (ss.map Value.Says) vs := by
  rw [Meets, List.forall₂_map_left_iff] at h ⊢
  exact h.imp fun _ _ hv => hv.toSpells

theorem Value.Spells.array {v : Value} {xs : List Json} (h : v.Spells (.arr xs)) :
    ∃ items span, v = .array items span ∧ literals items = xs.map Json.reread := by
  have hl := h.literal
  rw [Json.reread, Json.rereadItems_eq_map] at hl
  cases v with
  | array items span => exact ⟨items, span, rfl, by simpa [Value.literal] using hl⟩
  | num n span =>
    simp only [Value.literal, Json.ofNumber] at hl
    split at hl <;> cases hl
  | _ => cases hl

theorem CompileM.mapM_requiredReference {ss : List String} {vs : List Value}
    (h : Meets (ss.map Value.Cites) vs) : vs.mapM requiredReference = pure (ss.map .str) := by
  rw [Meets, List.forall₂_map_left_iff] at h
  induction h with
  | nil => rfl
  | cons hv _ ih => rw [List.mapM_cons, requiredReference_eq hv, pure_bind, ih, pure_bind]; rfl

theorem CompileM.optionalReference_eq {key : String} {t : Option String} {v : Option Value}
    (h : Option.Rel Value.Cites t v) : optionalReference key v = pure (optionalText key t) := by
  cases h with
  | none => rfl
  | some hv => simp only [optionalReference, reference_eq hv, pure_bind]; rfl

end Worldbook
