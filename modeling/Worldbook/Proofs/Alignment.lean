import Mathlib.Data.List.Forall2
import Worldbook.Proofs.Reports
import Worldbook.Proofs.Trees

/-!
# Keywords read side by side

What has to be shown of a keyword, of its reports, its fields or its bindings, is mostly a matter of
the single steps it takes. An `Alignment` says of two readings of a statement, the second with other
spans, what is asked of these steps. Each keyword is walked through once here, for any alignment.
-/

namespace Worldbook

open CompileM

/-- The keys whose values are references. -/
def isReferenceKey (key : String) : Bool := (["set", "from"] ++ Value.referenceKeys).contains key

structure Alignment where
  /-- Where the spans of the second reading are. -/
  move : Span → Span
  span : Span → Prop
  value : Value → Prop
  /-- The values of both records. The flag says whether they are in the place of a reference. -/
  json : Bool → Json → Json → Prop
  /-- The attempts of both readings, whose results are related. -/
  Reads : ∀ {α β : Type}, (α → β → Prop) → Attempt α → Attempt β → Prop
  span_value : ∀ {v}, value v → span v.span
  literal : ∀ {v} place, value v → json place v.literal v.literal
  items : ∀ {items s}, value (.array items s) → ∀ v ∈ items, value v
  str : ∀ place text, json place (.str text) (.str text)
  arr : ∀ {place xs ys}, List.Forall₂ (json place) xs ys → json place (.arr xs) (.arr ys)
  obj : ∀ {place} {r r' : Record},
    List.Forall₂ (fun m m' => m'.1 = m.1 ∧ json (isReferenceKey m.1) m.2 m'.2) r r' →
    json place (.obj r) (.obj r')
  pure : ∀ {α β : Type} {R : α → β → Prop} {a b}, R a b → Reads R (pure a) (pure b)
  bind : ∀ {α β γ δ : Type} {R : α → β → Prop} {R' : γ → δ → Prop} {m m' k k'}, Reads R m m' →
    (∀ a b, R a b → Reads R' (k a) (k' b)) → Reads R' (m >>= k) (m' >>= k')
  reject : ∀ {α β : Type} {R : α → β → Prop} {p s}, p.severity = .error → p ≠ .numberOutOfRange →
    span s → Reads R (reject p s) (reject p (move s))
  reference : ∀ {v}, value v →
    Reads (json true) (liftM (reference v)) (liftM (reference (v.relocate move)))
  required : ∀ {v}, span v.span →
    Reads (fun x y => ∀ place, json place x y) (requiredReference v)
    (requiredReference (v.relocate move))

namespace Alignment

variable (A : Alignment)

def record (r r' : Record) : Prop :=
  List.Forall₂ (fun m m' => m'.1 = m.1 ∧ A.json (isReferenceKey m.1) m.2 m'.2) r r'

def args (a : Args) : Prop := A.span a.span ∧ ∀ v ∈ a.rest, A.value v

def amount (n : Number) : Prop := ∀ place, A.json place (.ofNumber n) (.ofNumber n)

structure States (s : Statement) : Prop where
  span : A.span s.span
  spans : ∀ v ∈ s.values, A.span v.span
  values : ∀ v ∈ s.positional, A.value v
  amounts : ∀ n ∈ s.amounts, A.amount n ∧ A.amount n.negate

/-- Results that are related, and the same arguments after them. -/
def Next {α β : Type} (R : α → β → Prop) (p : α × Args) (q : β × Args) : Prop :=
  R p.1 q.1 ∧ A.args p.2 ∧ q.2 = p.2.relocate A.move

def branches (b b' : Branches) : Prop :=
  Option.Rel (List.Forall₂ (A.json false)) b.conditions b'.conditions ∧
  Option.Rel (List.Forall₂ (A.json false)) b.consequence b'.consequence ∧
  Option.Rel (List.Forall₂ (A.json false)) b.alternative b'.alternative

/-- The readings of a body, and the names that are bound in front of one. -/
structure Bodies (n n' : Nested) : Prop where
  fields : A.Reads A.record (liftM (n.fields [])) (liftM (n'.fields []))
  conditions : A.Reads (List.Forall₂ (A.json false)) (liftM n.conditions) (liftM n'.conditions)
  mutations : A.Reads (List.Forall₂ (A.json false)) (liftM n.mutations) (liftM n'.mutations)
  path : ∀ s, A.span s → A.Reads A.record (liftM (n.path s)) (liftM (n'.path (A.move s)))
  branches : A.Reads A.branches (liftM n.branches) (liftM n'.branches)
  aliasField : ∀ name, A.Reads A.record (liftM (aliasField name)) (liftM (aliasField name))

variable {A}

/-! ## Records -/

@[simp] theorem record_nil : A.record [] [] := .nil

theorem record_cons {key : String} {v w : Json} {r r' : Record} (h : A.json (isReferenceKey key) v w)
    (hs : A.record r r') : A.record ((key, v) :: r) ((key, w) :: r') := .cons ⟨rfl, h⟩ hs

theorem record_text {key text : String} {r r' : Record} (h : A.record r r') :
    A.record (textField key text :: r) (textField key text :: r') := record_cons (A.str _ text) h

theorem record_single {key : String} {v w : Json} (h : A.json (isReferenceKey key) v w) :
    A.record [(key, v)] [(key, w)] := record_cons h record_nil

theorem record_append {r r' t t' : Record} (h : A.record r r') (ht : A.record t t') :
    A.record (r ++ t) (r' ++ t') :=
  List.rel_append h ht

theorem record_set {key : String} {v w : Json} {r r' : Record} (h : A.record r r')
    (hv : A.json (isReferenceKey key) v w) : A.record (r.set key v) (r'.set key w) := by
  induction h with
  | nil => exact record_single hv
  | @cons m m' r r' hm hs ih =>
    obtain ⟨k, x⟩ := m
    obtain ⟨_, y⟩ := m'
    obtain ⟨rfl, hx⟩ := hm
    unfold Record.set
    split
    · exact record_cons hv hs
    · exact record_cons hx ih

theorem record_setAll {r r' t t' : Record} (h : A.record r r') (ht : A.record t t') :
    A.record (r.setAll t) (r'.setAll t') := by
  induction ht generalizing r r' with
  | nil => exact h
  | @cons m m' t t' hm _ ih =>
    obtain ⟨k, x⟩ := m
    obtain ⟨_, y⟩ := m'
    obtain ⟨rfl, hx⟩ := hm
    exact ih (record_set h hx)

theorem record_optionalText (key : String) (text : Option String) :
    A.record (optionalText key text) (optionalText key text) := by
  cases text with
  | none => exact record_nil
  | some text => exact record_text record_nil

theorem literals {vs : List Value} (h : ∀ v ∈ vs, A.value v) (place : Bool) :
    List.Forall₂ (A.json place) (Value.literals vs) (Value.literals vs) := by
  induction vs with
  | nil => exact .nil
  | cons v vs ih =>
    obtain ⟨hv, hvs⟩ := List.forall_mem_cons.1 h
    exact .cons (A.literal place hv) (ih hvs)

/-! ## Steps -/

section
variable {α β γ δ : Type} {R : α → β → Prop} {R' : γ → δ → Prop}

theorem Reads.next {m : Attempt (α × Args)} {m' : Attempt (β × Args)} {k : α × Args → Attempt γ}
    {k' : β × Args → Attempt δ} (h : A.Reads (A.Next R) m m')
    (hk : ∀ x y a, R x y → A.args a → A.Reads R' (k (x, a)) (k' (y, a.relocate A.move))) :
    A.Reads R' (m >>= k) (m' >>= k') := by
  refine A.bind h ?_
  rintro ⟨x, a⟩ ⟨y, b⟩ ⟨hxy, ha, rfl⟩
  exact hk x y a hxy ha

theorem Reads.next_eq {m m' : Attempt (α × Args)} {k : α × Args → Attempt γ} {k' : α × Args → Attempt δ}
    (h : A.Reads (A.Next fun x y => y = x) m m')
    (hk : ∀ x a, A.args a → A.Reads R' (k (x, a)) (k' (x, a.relocate A.move))) :
    A.Reads R' (m >>= k) (m' >>= k') := by
  refine h.next fun x _ a hxy ha => ?_
  rw [hxy]
  exact hk x a ha

theorem reads_next {x : α} {y : β} {a : Args} (h : R x y) (ha : A.args a) :
    A.Reads (A.Next R) (Pure.pure (x, a)) (Pure.pure (y, a.relocate A.move)) := A.pure ⟨h, ha, rfl⟩

theorem reads_unless {c : Prop} [Decidable c] {p : Problem} {s : Span} {k : Unit → Attempt γ}
    {k' : Unit → Attempt δ} (hp : p.severity = .error) (hp' : p ≠ .numberOutOfRange) (hs : A.span s)
    (h : A.Reads R' (k ()) (k' ())) : A.Reads R' (if c then CompileM.reject p s >>= k else k ())
      (if c then CompileM.reject p (A.move s) >>= k' else k' ()) := by
  split
  · exact A.bind (R := fun _ _ => False) (A.reject hp hp' hs) fun _ _ h => h.elim
  · exact h

theorem reads_unknownKeyword (language : String) {s : Statement} (hs : A.span s.span) :
    A.Reads R (do unknownKeyword language s; failure)
      (do unknownKeyword language (s.relocate A.move); failure) := by
  unfold unknownKeyword
  rw [Statement.keyword?_relocate, Statement.isQuoted_relocate, Statement.describe_relocate,
    Statement.span_relocate]
  refine A.reject ?_ ?_ hs
  · cases s.keyword? <;> rfl
  · cases s.keyword? <;> nofun

end

theorem reads_optionalReference {key : String} (hkey : isReferenceKey key = true) {v : Option Value}
    (hv : ∀ w ∈ v, A.value w) : A.Reads A.record (liftM (optionalReference key v))
      (liftM (optionalReference key (v.map (·.relocate A.move)))) := by
  cases v with
  | none => exact A.pure record_nil
  | some v =>
    have hlift (w : Value) : (liftM (optionalReference key (some w)) : Attempt Record) =
        liftM (CompileM.reference w) >>= fun j => Pure.pure [(key, j)] := by
      simp [optionalReference]
    rw [Option.map_some, hlift, hlift]
    refine A.bind (A.reference (hv v rfl)) fun x y hxy => A.pure (record_single ?_)
    rwa [hkey]

/-! ## Arguments -/

section
variable {a : Args}

theorem args_of {s : Statement} (h : A.States s) : A.args (Args.of s) := ⟨h.span, h.values⟩

theorem args_drop (h : A.args a) (n : Nat) : A.args { a with rest := a.rest.drop n } :=
  ⟨h.1, fun v hv => h.2 v (List.mem_of_mem_drop hv)⟩

theorem args_marker (h : A.args a) (word : String) : A.args (a.marker word).2 := by
  rcases a with ⟨w, s, _ | ⟨v, rest⟩⟩
  · exact h
  · unfold Args.marker
    dsimp only
    split
    · exact args_drop h 1
    · exact h

theorem args_text? (h : A.args a) : A.args a.text?.2 := by
  unfold Args.text?
  split
  · exact args_drop h 1
  · exact h

theorem value_flat (h : A.args a) : ∀ v ∈ a.flat, A.value v := by
  intro v hv
  obtain ⟨w, hw, hv⟩ := List.mem_flatMap.1 hv
  have hvalue := h.2 w hw
  cases w with
  | array items s => exact A.items hvalue v hv
  | _ => exact List.mem_singleton.1 hv ▸ hvalue

theorem reads_value (h : A.args a) (what : String) :
    A.Reads (A.Next fun v w => A.value v ∧ w = v.relocate A.move) (a.value what)
      ((a.relocate A.move).value what) := by
  rcases a with ⟨w, s, _ | ⟨v, rest⟩⟩
  · exact A.reject rfl nofun h.1
  · exact reads_next ⟨h.2 v (List.mem_cons_self ..), rfl⟩ (args_drop h 1)

theorem reads_text (h : A.args a) (what : String) :
    A.Reads (A.Next fun t u => u = t) (a.text what) ((a.relocate A.move).text what) := by
  refine (reads_value h what).next fun v _ a hv ha => ?_
  obtain ⟨hv, rfl⟩ := hv
  simp only [Value.text?_relocate, Value.describe_relocate, Value.span_relocate]
  cases v.text? with
  | some text => exact reads_next rfl ha
  | none => exact A.reject rfl nofun (A.span_value hv)

theorem reads_number (h : A.args a) (what : String) :
    A.Reads (A.Next fun n m => A.amount n ∧ m = n) (a.number what)
      ((a.relocate A.move).number what) := by
  refine (reads_value h what).next fun v _ a hv ha => ?_
  obtain ⟨hv, rfl⟩ := hv
  simp only [Value.number?_relocate, Value.describe_relocate, Value.span_relocate]
  cases v with
  | num n s => exact reads_next ⟨fun place => A.literal place hv, rfl⟩ ha
  | _ => exact A.reject rfl nofun (A.span_value hv)

theorem reads_finish (h : A.args a) :
    A.Reads (fun _ _ => True) a.finish (a.relocate A.move).finish := by
  rcases a with ⟨w, s, _ | ⟨v, rest⟩⟩
  · exact A.pure trivial
  · simp only [Args.finish, Args.relocate, List.map_cons, Value.describe_relocate, Value.span_relocate]
    exact A.reject rfl (by simp) (A.span_value (h.2 v (List.mem_cons_self ..)))

theorem reads_finished (h : A.args a) {r r' : Record} (hr : A.record r r') :
    A.Reads A.record (do a.finish; return r) (do (a.relocate A.move).finish; return r') :=
  A.bind (reads_finish h) fun _ _ _ => A.pure hr

theorem reads_markedText (h : A.args a) (word what : String) :
    A.Reads (A.Next fun t u => u = t) (a.markedText word what)
      ((a.relocate A.move).markedText word what) := by
  have hmarker := args_marker h word
  unfold Args.markedText
  rw [Args.marker_relocate]
  revert hmarker
  rcases a.marker word with ⟨_ | _, a⟩
  · exact fun ha => reads_next rfl ha
  · exact fun ha => (reads_text ha what).next_eq fun text a ha => reads_next rfl ha

theorem reads_markedValue (h : A.args a) (word what : String) :
    A.Reads (A.Next fun v w => (∀ x ∈ v, A.value x) ∧ w = v.map (·.relocate A.move))
      (a.markedValue word what) ((a.relocate A.move).markedValue word what) := by
  have hmarker := args_marker h word
  unfold Args.markedValue
  rw [Args.marker_relocate]
  revert hmarker
  rcases a.marker word with ⟨_ | _, a⟩
  · exact fun ha => reads_next ⟨nofun, rfl⟩ ha
  · refine fun ha => (reads_value ha what).next fun v _ a hv ha => ?_
    obtain ⟨hv, rfl⟩ := hv
    refine reads_next ⟨?_, rfl⟩ ha
    rintro x ⟨⟩
    exact hv

end

/-! ## Bounds -/

section
variable {s : Statement}

theorem reads_boundFields {comparison : Comparator × Number × Option Number} {span : Span}
    (hspan : A.span span) (h : ∀ n ∈ comparison.2.1 :: comparison.2.2.toList, A.amount n) :
    A.Reads A.record (boundFields comparison span) (boundFields comparison (A.move span)) := by
  obtain ⟨comparator, n, upper⟩ := comparison
  have hn : A.amount n := h n (by simp)
  have hupper : A.amount (upper.getD n) := by
    cases upper with
    | none => exact hn
    | some m => exact h m (by simp)
  unfold boundFields
  dsimp only
  split
  · exact A.reject rfl nofun hspan
  · cases comparator with
    | ge | le => exact A.pure (record_single (hn _))
    | eq => exact A.pure (record_cons (hn _) (record_single (hupper _)))
    | gt | lt => exact A.reject rfl nofun hspan

theorem States.comparison (h : A.States s) {comparison : Comparator × Number × Option Number}
    (hc : s.comparison? = some comparison) :
    ∀ n ∈ comparison.2.1 :: comparison.2.2.toList, A.amount n := by
  have hamounts := h.amounts
  cases s with
  | predicate word args comparator n upper span =>
    cases hc
    exact fun m hm => (hamounts m hm).1
  | _ => cases hc

theorem reads_optionalBounds (h : A.States s) :
    A.Reads A.record (optionalBounds s) (optionalBounds (s.relocate A.move)) := by
  unfold optionalBounds
  rw [Statement.comparison?_relocate, Statement.span_relocate]
  split
  · next comparison hc => exact reads_boundFields h.span (h.comparison hc)
  · exact A.pure record_nil

theorem reads_requiredBounds (h : A.States s) :
    A.Reads A.record (requiredBounds s) (requiredBounds (s.relocate A.move)) := by
  unfold requiredBounds
  rw [Statement.comparison?_relocate, Statement.span_relocate, Statement.keyword_relocate]
  split
  · next comparison hc => exact reads_boundFields h.span (h.comparison hc)
  · exact A.reject rfl nofun h.span

end

end Alignment

open Worldbook.Alignment

variable {A : Alignment}

/-! ## Conditions -/

namespace Condition

namespace Keyword

theorem fits_relocate (k : Keyword) (g : Span → Span) (s : Statement) :
    k.fits (s.relocate g) = k.fits s := by
  cases s with
  | block name quoted labels body span => simp [Statement.relocate, fits]
  | _ => rfl

theorem reads_relationshipFields {a : Args} (ha : A.args a) :
    A.Reads (A.Next A.record) (relationshipFields a) (relationshipFields (a.relocate A.move)) := by
  refine (reads_text ha _).next_eq fun kind a ha => ?_
  refine (reads_text ha _).next_eq fun direction a ha => ?_
  simp only [Args.text?_relocate]
  refine reads_next ?_ (args_text? (args_text? ha))
  exact record_append (record_append (record_text (record_text record_nil)) (record_optionalText ..))
    (record_optionalText ..)

theorem reads_fields (k : Keyword) {s : Statement} (hs : A.States s) {n n' : Nested}
    (hn : k.isBlock = true → A.Bodies n n') :
    A.Reads A.record (k.fields s n) (k.fields (s.relocate A.move) n') := by
  have ha := args_of hs
  unfold fields
  simp only [Args.of_relocate, Statement.comparison?_relocate, Statement.keyword_relocate,
    Statement.span_relocate, Args.flat_relocate, Value.literals_relocate]
  generalize Args.of s = a at ha
  -- Both sides take the same arguments in the same order, and `ha` follows what is left of them.
  cases k with
  | pressure =>
    refine (reads_text ha _).next_eq fun id a ha => ?_
    refine A.bind (reads_requiredBounds hs) fun bounds _ hbounds => ?_
    exact reads_finished ha (record_text hbounds)
  | cap =>
    simp only [Args.marker_relocate]
    refine (reads_text (args_marker ha "kind") _).next_eq fun kind a ha => ?_
    refine A.bind (reads_requiredBounds hs) fun bounds _ hbounds => ?_
    exact reads_finished ha (record_text hbounds)
  | entityCount =>
    simp only [Args.marker_relocate]
    refine (reads_text (args_marker ha "kind") _).next_eq fun kind a ha => ?_
    simp only [Args.text?_relocate]
    refine A.bind (reads_optionalBounds hs) fun bounds _ hbounds => ?_
    refine reads_finished (args_text? (args_text? ha))
      (record_append (record_append (record_text ?_) ?_) hbounds)
    · exact record_optionalText ..
    · exact record_optionalText ..
  | tagExists | lacksTag =>
    refine (reads_text ha _).next_eq fun tag a ha => ?_
    simp only [Args.value?_relocate]
    have hentity : ∀ v ∈ a.value?.1, A.value v := fun v hv => ha.2 v (List.mem_of_head? hv)
    refine A.bind (reads_optionalReference rfl hentity) fun entity _ hentity => ?_
    exact reads_finished (args_drop ha 1) (record_text hentity)
  | relationshipExists =>
    refine (reads_relationshipFields ha).next fun fields _ a hfields ha => ?_
    exact reads_unless rfl nofun hs.span (reads_finished ha hfields)
  | relationshipCount =>
    refine (reads_relationshipFields ha).next fun fields _ a hfields ha => ?_
    refine A.bind (reads_optionalBounds hs) fun bounds _ hbounds => ?_
    exact reads_finished ha (record_append hfields hbounds)
  | randomChance =>
    refine (reads_number ha _).next fun chance _ a hchance ha => ?_
    obtain ⟨hchance, rfl⟩ := hchance
    exact reads_finished ha (record_single (hchance _))
  | timeElapsed =>
    refine (reads_number ha _).next fun ticks _ a hticks ha => ?_
    obtain ⟨hticks, rfl⟩ := hticks
    refine (reads_markedText ha _ _).next_eq fun since a ha => ?_
    exact reads_finished ha (record_cons (hticks _) (record_optionalText ..))
  | eraMatch =>
    exact reads_unless rfl nofun hs.span (A.pure (record_single (A.arr (literals (value_flat ha) _))))
  | prominence =>
    refine (reads_markedText ha _ _).next_eq fun least a ha => ?_
    refine (reads_markedText ha _ _).next_eq fun most a ha => ?_
    refine reads_unless rfl nofun hs.span (reads_finished ha ?_)
    exact record_append (record_optionalText ..) (record_optionalText ..)
  | entityExists =>
    refine (reads_value ha _).next fun v _ a hv ha => ?_
    obtain ⟨hv, rfl⟩ := hv
    refine A.bind (A.required (A.span_value hv)) fun entity _ hentity => ?_
    exact reads_finished ha (record_single (hentity _))
  | notSelf => exact reads_finished ha record_nil
  | and | or =>
    refine A.bind (hn rfl).conditions fun xs ys hxs => ?_
    exact reads_finished ha (record_single (A.arr hxs))
  | graphPath =>
    refine A.bind ((hn rfl).path s.span hs.span) fun path _ hpath => ?_
    exact reads_finished ha (record_single (A.obj hpath))
  | generic => exact (hn rfl).fields

end Keyword

theorem reads_compile {s : Statement} (hs : A.States s) {n n' : Nested} (hn : A.Bodies n n') :
    A.Reads (A.json false) (compile s n) (compile (s.relocate A.move) n') := by
  unfold compile
  rw [Statement.plainKeyword?_relocate]
  cases s.plainKeyword?.bind Keyword.ofWord? with
  | none => exact reads_unknownKeyword "condition" hs.span
  | some k =>
    simp only [k.fits_relocate, Statement.span_relocate]
    refine reads_unless ?_ ?_ hs.span (A.bind (k.reads_fields hs fun _ => hn) fun fields _ hfields =>
      A.pure (A.obj ?_))
    · cases k <;> rfl
    · cases k <;> nofun
    · split
      · exact hfields
      · exact record_text hfields

end Condition

/-! ## Filters -/

namespace Filter

theorem leadingKinds_relocate (g : Span → Span) (vs : List Value) :
    leadingKinds (vs.map (·.relocate g)) =
      ((leadingKinds vs).1, (leadingKinds vs).2.map (·.relocate g)) := by
  induction vs with
  | nil => rfl
  | cons v vs ih =>
    cases v with
    | array items span =>
      simp only [List.map_cons, Value.relocate, leadingKinds, ih, Value.literals_relocateAll]
    | str text span => simp only [List.map_cons, Value.relocate, leadingKinds, ih]; rfl
    | name text span =>
      have hname (span : Span) (rest : List Value) : leadingKinds (.name text span :: rest) =
          if text != "min" && text != "max" then (.str text :: (leadingKinds rest).1,
            (leadingKinds rest).2)
          else ([], .name text span :: rest) := rfl
      rw [List.map_cons, Value.relocate, hname, hname, ih]
      split <;> rfl
    | _ => rfl

theorem leadingKinds_kept {vs : List Value} (h : ∀ v ∈ vs, A.value v) (place : Bool) :
    List.Forall₂ (A.json place) (leadingKinds vs).1 (leadingKinds vs).1 ∧
    ∀ v ∈ (leadingKinds vs).2, A.value v := by
  induction vs with
  | nil => exact ⟨.nil, nofun⟩
  | cons v vs ih =>
    obtain ⟨hv, hvs⟩ := List.forall_mem_cons.1 h
    obtain ⟨hkinds, hrest⟩ := ih hvs
    unfold leadingKinds
    dsimp only
    split
    · exact ⟨List.rel_append (literals (A.items hv) place) hkinds, hrest⟩
    · split
      · exact ⟨.cons (A.literal place hv) hkinds, hrest⟩
      · exact ⟨.nil, h⟩

theorem reads_relationshipFields {s : Statement} (hs : A.States s) :
    A.Reads A.record (relationshipFields s) (relationshipFields (s.relocate A.move)) := by
  unfold relationshipFields
  rw [Args.of_relocate]
  refine (reads_text (args_of hs) _).next_eq fun kind a ha => ?_
  refine (reads_markedValue ha _ _).next fun partner _ a hpartner ha => ?_
  obtain ⟨hpartner, rfl⟩ := hpartner
  refine A.bind (reads_optionalReference rfl hpartner) fun fs _ hfs => ?_
  refine (reads_markedText ha _ _).next_eq fun direction a ha => ?_
  exact reads_finished ha (record_append (record_text hfs) (record_optionalText ..))

theorem reads_sizeBound {a : Args} (ha : A.args a) (bound : String) :
    A.Reads (A.Next A.record) (sizeBound a bound) (sizeBound (a.relocate A.move) bound) := by
  have hmarker := args_marker ha bound
  unfold sizeBound
  rw [Args.marker_relocate]
  revert hmarker
  rcases a.marker bound with ⟨_ | _, a⟩
  · exact fun ha => reads_next record_nil ha
  · refine fun ha => (reads_number ha _).next fun n _ a hn ha => ?_
    obtain ⟨hn, rfl⟩ := hn
    exact reads_next (record_single (hn _)) ha

/-- References that must all be bound are looked up to the first that is not. -/
theorem reads_references {vs : List Value} (h : ∀ v ∈ vs, A.value v) (place : Bool) :
    A.Reads (List.Forall₂ (A.json place)) (vs.mapM requiredReference)
      ((vs.map (·.relocate A.move)).mapM requiredReference) := by
  induction vs with
  | nil => exact A.pure .nil
  | cons v vs ih =>
    obtain ⟨hv, hvs⟩ := List.forall_mem_cons.1 h
    rw [List.map_cons, List.mapM_cons, List.mapM_cons]
    refine A.bind (A.required (A.span_value hv)) fun x y hxy => A.bind (ih hvs) fun xs ys hxys => ?_
    exact A.pure (.cons (hxy place) hxys)

namespace Keyword

theorem fits_relocate (k : Keyword) (g : Span → Span) (s : Statement) :
    k.fits (s.relocate g) = k.fits s := by
  cases s with
  | block name quoted labels body span => simp [Statement.relocate, fits]
  | _ => rfl

theorem reads_fields (k : Keyword) {s : Statement} (hs : A.States s) {n n' : Nested}
    (hn : k.isBlock = true → A.Bodies n n') :
    A.Reads A.record (k.fields s n) (k.fields (s.relocate A.move) n') := by
  have ha := args_of hs
  have hrelationship := reads_relationshipFields hs
  unfold fields
  simp only [Args.of_relocate, Statement.span_relocate, Args.flat_relocate, Value.literals_relocate]
  generalize Args.of s = a at ha
  cases k with
  | exclude =>
    refine A.bind (reads_references (value_flat ha) (isReferenceKey "entities")) fun xs ys hxys => ?_
    have hempty : ys.isEmpty = xs.isEmpty := by cases hxys <;> rfl
    rw [hempty]
    exact reads_unless rfl nofun hs.span (A.pure (record_single (A.arr hxys)))
  | hasRelationship | lacksRelationship => exact hrelationship
  | hasTag =>
    refine (reads_text ha _).next_eq fun tag a ha => ?_
    simp only [Args.value?_relocate]
    have hvalue : ∀ v ∈ a.value?.1, A.value v := fun v hv => ha.2 v (List.mem_of_head? hv)
    refine reads_finished (args_drop ha 1) (record_text ?_)
    revert hvalue
    cases a.value?.1 with
    | none => exact fun _ => record_nil
    | some v =>
      simp only [Option.map_some, Value.literal_relocate]
      exact fun hvalue => record_single (A.literal _ (hvalue v rfl))
  | lacksTag | hasCulture | notHasCulture =>
    refine (reads_text ha _).next_eq fun text a ha => ?_
    exact reads_finished ha (record_text record_nil)
  | hasAnyTag =>
    exact reads_unless rfl nofun hs.span (A.pure (record_single (A.arr (literals (value_flat ha) _))))
  | componentSize =>
    obtain ⟨hkinds, hrest⟩ := leadingKinds_kept ha.2 false
    rw [show (a.relocate A.move).rest = a.rest.map (·.relocate A.move) from rfl, leadingKinds_relocate]
    refine reads_unless rfl nofun hs.span ?_
    have hargs : A.args { a with rest := (leadingKinds a.rest).2 } := ⟨ha.1, hrest⟩
    refine (reads_sizeBound hargs "min").next fun least _ a hleast ha => ?_
    refine (reads_sizeBound ha "max").next fun most _ a hmost ha => ?_
    exact reads_finished ha (record_cons (A.arr hkinds) (record_append hleast hmost))
  | sharesRelated =>
    refine (reads_text ha _).next_eq fun kind a ha => ?_
    refine (reads_markedValue ha _ _).next fun partner _ a hpartner ha => ?_
    obtain ⟨hpartner, rfl⟩ := hpartner
    cases partner with
    | none => exact A.reject rfl nofun hs.span
    | some partner =>
      refine A.bind (A.reference (hpartner partner rfl)) fun x y hxy => ?_
      exact reads_finished ha (record_text (record_single hxy))
  | matchesCulture | notMatchesCulture =>
    refine (reads_value ha _).next fun v _ a hv ha => ?_
    obtain ⟨hv, rfl⟩ := hv
    refine A.bind (A.reference hv) fun x y hxy => ?_
    exact reads_finished ha (record_single hxy)
  | graphPath =>
    refine A.bind ((hn rfl).path s.span hs.span) fun path _ hpath => ?_
    exact reads_finished ha (record_single (A.obj hpath))
  | generic => exact (hn rfl).fields

end Keyword

theorem reads_compile {s : Statement} (hs : A.States s) {n n' : Nested} (hn : A.Bodies n n') :
    A.Reads (A.json false) (compile s n) (compile (s.relocate A.move) n') := by
  unfold compile
  rw [Statement.plainKeyword?_relocate]
  cases s.plainKeyword?.bind Keyword.ofWord? with
  | none => exact reads_unknownKeyword "filter" hs.span
  | some k =>
    simp only [k.fits_relocate, Statement.describe_relocate, Statement.span_relocate]
    refine reads_unless rfl nofun hs.span ?_
    refine A.bind (k.reads_fields hs fun _ => hn) fun fields _ hfields => A.pure (A.obj ?_)
    split
    · exact hfields
    · exact record_text hfields

end Filter

/-! ## Mutations -/

namespace Mutation

theorem reads_entity {a : Args} (ha : A.args a) :
    A.Reads (A.Next fun x y => ∀ place, A.json place x y) (entity a) (entity (a.relocate A.move)) := by
  refine (reads_value ha _).next fun v _ a hv ha => ?_
  obtain ⟨hv, rfl⟩ := hv
  exact A.bind (A.required (A.span_value hv)) fun x y hxy => reads_next hxy ha

theorem reads_entityAndKind {a : Args} (ha : A.args a) :
    A.Reads (A.Next A.record) (entityAndKind a) (entityAndKind (a.relocate A.move)) := by
  refine (reads_entity ha).next fun x y a hxy ha => ?_
  refine (reads_text ha _).next_eq fun kind a ha => ?_
  exact reads_next (record_cons (hxy _) (record_text record_nil)) ha

theorem reads_direction {a : Args} (ha : A.args a) :
    A.Reads (A.Next A.record) (direction a) (direction (a.relocate A.move)) :=
  (reads_markedText ha _ _).next_eq fun _ _ ha => reads_next (record_optionalText ..) ha

theorem reads_transferEnd {s : Statement} (hs : A.States s) {a : Args} (ha : A.args a) (word : String) :
    A.Reads (A.Next fun m m' => A.record [m] [m']) (transferEnd s a word)
      (transferEnd (s.relocate A.move) (a.relocate A.move) word) := by
  have hmarker := args_marker ha word
  unfold transferEnd
  rw [Args.marker_relocate, Statement.span_relocate]
  revert hmarker
  rcases a.marker word with ⟨_ | _, a⟩
  · exact fun _ => A.reject rfl nofun hs.span
  · refine fun ha => (reads_value ha _).next fun v _ a hv ha => ?_
    obtain ⟨hv, rfl⟩ := hv
    exact A.bind (A.required (A.span_value hv)) fun x y hxy => reads_next (record_single (hxy _)) ha

theorem tagValue_relocate (g : Span → Span) (a : Args) :
    tagValue (a.relocate g) = ((tagValue a).1, (tagValue a).2.relocate g) := by
  rcases a with ⟨w, span, _ | ⟨v, rest⟩⟩
  · rfl
  · simp only [Args.relocate, List.map_cons, tagValue, Value.isWord_relocate, Value.literal_relocate]
    cases v.isWord "from" <;> rfl

theorem tagValue_kept {a : Args} (ha : A.args a) :
    A.record (tagValue a).1 (tagValue a).1 ∧ A.args (tagValue a).2 := by
  unfold tagValue
  split
  · next v rest hrest =>
    have hvalues := List.forall_mem_cons.1 (hrest ▸ ha.2)
    split
    · exact ⟨record_nil, ha⟩
    · exact ⟨record_single (A.literal _ hvalues.1), ha.1, hvalues.2⟩
  · exact ⟨record_nil, ha⟩

theorem reads_ofMutate (k : Keyword) {subject : Value} (hsubject : A.span subject.span)
    (change : Change) {n : Number} (hn : A.amount n ∧ A.amount n.negate) :
    A.Reads A.record (ofMutate k subject change n) (ofMutate k (subject.relocate A.move) change n) := by
  cases k with
  | modifyPressure =>
    simp only [ofMutate, Value.text?_relocate, Value.span_relocate, pure_bind]
    cases subject.text? with
    | some text =>
      refine A.pure (record_text (record_single ?_))
      cases change with
      | add => exact hn.1 _
      | subtract => exact hn.2 _
    | none =>
      exact A.bind (R := fun _ _ => False) (A.reject rfl (by simp) hsubject) fun _ _ h => h.elim
  | _ =>
    simp only [ofMutate, pure_bind]
    refine A.bind (A.required hsubject) fun x y hxy =>
      A.pure (record_cons (hxy _) (record_single ?_))
    cases change with
    | add => exact hn.1 _
    | subtract => exact hn.2 _

theorem reads_conditional {s : Statement} (hs : A.States s) {n n' : Nested} (hn : A.Bodies n n') :
    A.Reads A.record (conditional s n) (conditional (s.relocate A.move) n') := by
  unfold conditional
  rw [Statement.span_relocate]
  refine A.bind hn.branches ?_
  rintro ⟨conditions, consequence, alternative⟩ ⟨conditions', consequence', alternative'⟩
    ⟨hwhen, hthen, helse⟩
  dsimp only at hwhen hthen helse ⊢
  cases hwhen with
  | none => exact A.reject rfl nofun hs.span
  | some hwhen =>
    cases hthen with
    | none => exact A.reject rfl nofun hs.span
    | some hthen =>
      refine A.pure (record_append (record_cons (A.arr hwhen) (record_single (A.arr hthen))) ?_)
      cases helse with
      | none => exact record_nil
      | some helse => exact record_single (A.arr helse)

namespace Keyword

theorem fits_relocate (k : Keyword) (g : Span → Span) (s : Statement) :
    k.fits (s.relocate g) = k.fits s := by
  cases s <;> rfl

theorem ofStatement?_relocate (g : Span → Span) (s : Statement) :
    ofStatement? (s.relocate g) = ofStatement? s := by
  cases s with
  | mutate target id change amount span =>
    by_cases hpressure : target = "pressure"
    · rw [hpressure]
      rfl
    · by_cases hprominence : target = "prominence"
      · rw [hprominence]
        rfl
      · simp [ofStatement?, Statement.relocate]
  | bare value span =>
    unfold ofStatement?
    rw [Statement.plainKeyword?_relocate]
    rfl
  | _ => rfl

theorem reads_fields (k : Keyword) {s : Statement} (hs : A.States s) {n n' : Nested}
    (hn : k.isBlock = true → A.Bodies n n') :
    A.Reads A.record (k.fields s n) (k.fields (s.relocate A.move) n') := by
  have ha := args_of hs
  unfold fields
  simp only [Args.of_relocate, Statement.span_relocate, Args.isEmpty_rest_relocate]
  generalize Args.of s = a at ha
  cases k with
  | createRelationship | modifyPressure => exact A.reject rfl nofun hs.span
  | adjustProminence =>
    refine (reads_entity ha).next fun x y a hxy ha => ?_
    refine (reads_number ha _).next fun delta _ a hdelta ha => ?_
    obtain ⟨hdelta, rfl⟩ := hdelta
    exact reads_finished ha (record_cons (hxy _) (record_single (hdelta _)))
  | changeStatus | removeTag =>
    refine (reads_entity ha).next fun x y a hxy ha => ?_
    refine (reads_text ha _).next_eq fun text a ha => ?_
    exact reads_finished ha (record_cons (hxy _) (record_text record_nil))
  | setTag =>
    refine (reads_entity ha).next fun x y a hxy ha => ?_
    refine (reads_text ha _).next_eq fun tag a ha => ?_
    obtain ⟨hvalue, ha⟩ := tagValue_kept ha
    simp only [tagValue_relocate]
    refine (reads_markedValue ha _ _).next fun source _ a hsource ha => ?_
    obtain ⟨hsource, rfl⟩ := hsource
    refine A.bind (reads_optionalReference rfl hsource) fun found _ hfound => ?_
    exact reads_finished ha
      (record_append (record_append (record_cons (hxy _) (record_text record_nil)) hvalue) hfound)
  | archiveRelationship =>
    refine (reads_entityAndKind ha).next fun subject _ a hsubject ha => ?_
    refine (reads_markedValue ha _ _).next fun partner _ a hpartner ha => ?_
    obtain ⟨hpartner, rfl⟩ := hpartner
    refine A.bind (reads_optionalReference rfl hpartner) fun found _ hfound => ?_
    refine (reads_direction ha).next fun dir _ a hdir ha => ?_
    exact reads_finished ha (record_append (record_append hsubject hfound) hdir)
  | archiveAllRelationships =>
    refine (reads_entityAndKind ha).next fun subject _ a hsubject ha => ?_
    refine (reads_direction ha).next fun dir _ a hdir ha => ?_
    exact reads_finished ha (record_append hsubject hdir)
  | transferRelationship =>
    refine (reads_entityAndKind ha).next fun subject _ a hsubject ha => ?_
    refine (reads_transferEnd hs ha "from").next fun giver _ a hgiver ha => ?_
    refine (reads_transferEnd hs ha "to").next fun taker _ a htaker ha => ?_
    exact reads_finished ha (record_append hsubject (record_append hgiver htaker))
  | forEachRelated =>
    refine (reads_entityAndKind ha).next fun subject _ a hsubject ha => ?_
    refine (reads_direction ha).next fun dir _ a hdir ha => ?_
    refine (reads_markedText ha _ _).next_eq fun name a ha => ?_
    refine A.bind ((hn rfl).aliasField name) fun bound _ hbound => ?_
    refine A.bind (reads_finish ha) fun _ _ _ => ?_
    refine A.bind (hn rfl).mutations fun xs ys hxys => A.pure ?_
    exact record_append (record_append (record_append hsubject hdir) hbound)
      (record_single (A.arr hxys))
  | conditional => exact A.bind (reads_finish ha) fun _ _ _ => reads_conditional hs (hn rfl)
  | updateRateLimit =>
    dsimp only
    split
    · exact A.pure record_nil
    · refine (reads_number ha _).next fun cooldown _ a hcooldown ha => ?_
      obtain ⟨hcooldown, rfl⟩ := hcooldown
      exact reads_finished ha (record_single (hcooldown _))
  | generic => exact A.bind (reads_finish ha) fun _ _ _ => (hn rfl).fields

end Keyword

theorem reads_unknown {α β : Type} {R : α → β → Prop} {s : Statement} (hs : A.States s) :
    A.Reads R (do unknown s; failure) (do unknown (s.relocate A.move); failure) := by
  fun_cases unknown s with
  | case1 => exact A.reject rfl nofun hs.span
  | case2 s hmutate =>
    rw [unknown.eq_2]
    · exact reads_unknownKeyword "mutation" hs.span
    · intro _ _ _ _ _ heq
      cases s <;> cases heq
      exact hmutate _ _ _ _ _ rfl

def Relates (A : Alignment) (s : Statement) : Prop :=
  match s with
  | .rel .. => A.Reads A.record (s.relationship true) ((s.relocate A.move).relationship true)
  | _ => True

theorem reads_compile {s : Statement} (hs : A.States s) (hrelates : Relates A s) {n n' : Nested}
    (hn : A.Bodies n n') : A.Reads (A.json false) (compile s n) (compile (s.relocate A.move) n') := by
  unfold compile
  rw [Keyword.ofStatement?_relocate]
  cases Keyword.ofStatement? s with
  | none => exact reads_unknown hs
  | some k =>
    simp only [k.fits_relocate, Statement.describe_relocate, Statement.span_relocate]
    refine reads_unless rfl nofun hs.span ?_
    cases s with
    | mutate target id change amount span =>
      have hid := hs.spans id (List.mem_singleton_self _)
      refine A.bind (reads_ofMutate k hid change (hs.amounts amount (List.mem_singleton_self _)))
        fun fs _ hfs => ?_
      exact A.pure (A.obj (record_text hfs))
    | rel key label kind source target values span =>
      refine A.bind hrelates fun fs _ hfs => A.pure (A.obj ?_)
      exact record_setAll (record_text record_nil) hfs
    | _ =>
      refine A.bind (k.reads_fields hs fun _ => hn) fun fs _ hfs => A.pure (A.obj ?_)
      split
      · exact hfs
      · exact record_text hfs

end Mutation

end Worldbook
