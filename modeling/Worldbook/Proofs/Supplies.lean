import Worldbook.Proofs.Items
import Worldbook.Proofs.Recovery
import Worldbook.Proofs.Trees

/-!
# What a compile draws on

A compile puts spans into its reports and values into its records. It makes neither up: a
span is one of the source or the join of two, and a value is a literal of the source, a name,
or a list or an object of such. A `Supply` is any choice of spans and values that is closed
in this way, and `Draws` says that a step takes all it reports and gives from the supply.
-/

namespace Worldbook

open CompileM

/-- Spans with all their joins, and values that are chosen by what stands in them: every
string and every flag, and a list or an object when all that it holds is chosen. -/
structure Supply where
  span : Span → Prop
  json : Json → Prop
  join : ∀ {a b}, span a → span b → span (a.join b)
  str : ∀ text, json (.str text)
  bool : ∀ flag, json (.bool flag)
  arr : ∀ items, json (.arr items) ↔ ∀ v ∈ items, json v
  obj : ∀ members, json (.obj members) ↔ ∀ m ∈ members, json m.2

namespace Supply

attribute [simp] str bool arr

variable (S : Supply)

/-- A report of the supply. The numbers out of range are reported apart from the compile. -/
def Admits (d : Diagnostic) : Prop := ∃ p s, p ≠ .numberOutOfRange ∧ S.span s ∧ d = Problem.reported p s

def Makes (r : Record) : Prop := ∀ m ∈ r, S.json m.2

structure Offers (v : Value) : Prop where
  spans : ∀ w ∈ v.tree, S.span w.span
  literal : S.json v.literal

def Counts (n : Number) : Prop := S.json (.ofNumber n) ∧ S.json (.ofNumber n.negate)

structure States (s : Statement) : Prop where
  span : S.span s.span
  values : ∀ v ∈ s.values, S.Offers v
  amounts : ∀ n ∈ s.amounts, S.Counts n

def Feeds (a : Args) : Prop := S.span a.span ∧ ∀ v ∈ a.rest, S.Offers v

end Supply

/-! ## Records and values -/

namespace Supply

variable {S : Supply}

theorem admits_reported {p : Problem} {s : Span} (hp : p ≠ .numberOutOfRange) (hs : S.span s) :
    S.Admits (p.reported s) := ⟨p, s, hp, hs, rfl⟩

@[simp] theorem json_obj {r : Record} : S.json (.obj r) ↔ S.Makes r := S.obj r

@[simp] theorem makes_nil : S.Makes [] := nofun

@[simp] theorem makes_cons {m : String × Json} {r : Record} :
    S.Makes (m :: r) ↔ S.json m.2 ∧ S.Makes r :=
  List.forall_mem_cons

@[simp] theorem makes_append {r t : Record} : S.Makes (r ++ t) ↔ S.Makes r ∧ S.Makes t :=
  List.forall_mem_append

@[simp] theorem json_textField (key text : String) : S.json (textField key text).2 := S.str text

@[simp] theorem makes_optionalText (key : String) (text : Option String) :
    S.Makes (optionalText key text) := by
  cases text <;> simp [optionalText]

theorem Makes.set {r : Record} (h : S.Makes r) (key : String) {v : Json} (hv : S.json v) :
    S.Makes (r.set key v) := by
  induction r with
  | nil => simp [Record.set, hv]
  | cons m r ih =>
    obtain ⟨k, x⟩ := m
    rw [makes_cons] at h
    rw [Record.set]
    split
    · exact makes_cons.2 ⟨hv, h.2⟩
    · exact makes_cons.2 ⟨h.1, ih h.2⟩

theorem Makes.setAll {r t : Record} (h : S.Makes r) (ht : S.Makes t) : S.Makes (r.setAll t) := by
  induction t generalizing r with
  | nil => exact h
  | cons m t ih =>
    rw [makes_cons] at ht
    exact ih (h.set m.1 ht.1) ht.2

theorem Makes.ofPairs {r : Record} (h : S.Makes r) : S.Makes (.ofPairs r) := makes_nil.setAll h

theorem Makes.get? {r : Record} (h : S.Makes r) {key : String} {v : Json} (hv : r.get? key = some v) :
    S.json v :=
  h _ (Record.mem_of_get? hv)

theorem Makes.extend {r : Record} (h : S.Makes r) (key : String) {items : List Json}
    (hitems : ∀ v ∈ items, S.json v) : S.Makes (r.extend key items) := by
  unfold Record.extend
  split
  · next held hheld =>
    have hlist := (S.arr held).1 (h.get? hheld)
    exact h.set key ((S.arr _).2 (List.forall_mem_append.2 ⟨hlist, hitems⟩))
  · exact h.set key ((S.arr _).2 hitems)

theorem json_literals {vs : List Value} (h : ∀ v ∈ vs, S.Offers v) :
    ∀ x ∈ Value.literals vs, S.json x := by
  induction vs with
  | nil => exact nofun
  | cons v vs ih =>
    have hvs := List.forall_mem_cons.1 h
    exact List.forall_mem_cons.2 ⟨hvs.1.literal, ih hvs.2⟩

theorem makes_literalMembers {ms : List (String × Value)} (h : ∀ m ∈ ms, S.Offers m.2) :
    S.Makes (Value.literalMembers ms) := by
  induction ms with
  | nil => exact nofun
  | cons m ms ih =>
    have hms := List.forall_mem_cons.1 h
    exact makes_cons.2 ⟨hms.1.literal, ih hms.2⟩

theorem Offers.span {v : Value} (h : S.Offers v) : S.span v.span := h.spans v v.mem_tree_self

theorem mem_literals {v : Value} {vs : List Value} (h : v ∈ vs) : v.literal ∈ Value.literals vs := by
  induction vs with
  | nil => cases h
  | cons w vs ih =>
    cases h with
    | head => exact List.mem_cons_self
    | tail _ h => exact List.mem_cons_of_mem _ (ih h)

theorem Offers.items {items : List Value} {s : Span} (h : S.Offers (.array items s)) :
    ∀ v ∈ items, S.Offers v := by
  intro v hv
  refine ⟨?_, (S.arr _).1 h.literal _ (mem_literals hv)⟩
  exact (Value.forall_mem_tree.1 h.spans).2 v hv

mutual

/-- Looking names up changes strings into strings. -/
theorem json_resolved (scope : Scope) : ∀ v : Value, S.json v.literal → S.json (v.resolved scope)
  | .name _ _, _ => S.str _
  | .array items _, h => (S.arr _).2 (json_resolvedItems scope items ((S.arr _).1 h))
  | .str _ _, h | .num _ _, h | .bool _ _, h | .null _, h | .object _ _, h | .call _ _ _, h => h

theorem json_resolvedItems (scope : Scope) :
    ∀ vs : List Value, (∀ x ∈ Value.literals vs, S.json x) →
    ∀ x ∈ Value.resolvedItems scope vs, S.json x
  | [], _ => nofun
  | v :: vs, h =>
    have hvs := List.forall_mem_cons.1 h
    List.forall_mem_cons.2 ⟨json_resolved scope v hvs.1, json_resolvedItems scope vs hvs.2⟩

end

theorem Offers.underKey {v : Value} (h : S.Offers v) (scope : Scope) (key : String) :
    S.json (v.underKey scope key) := by
  unfold Value.underKey
  split
  · exact json_resolved scope v h.literal
  · exact h.literal

theorem offers_pairs? {vs : List Value} (h : ∀ v ∈ vs, S.Offers v) {ps : List (String × Value)}
    (hps : Value.pairs? vs = some ps) : ∀ p ∈ ps, S.Offers p.2 := by
  fun_induction Value.pairs? vs generalizing ps with
  | case1 =>
    cases hps
    simp
  | case2 => cases hps
  | case3 key value rest ih =>
    obtain ⟨word, -, hps⟩ := Option.bind_eq_some_iff.1 hps
    obtain ⟨more, hmore, hps⟩ := Option.bind_eq_some_iff.1 hps
    cases hps
    refine List.forall_mem_cons.2 ⟨h value (by simp), ih ?_ hmore⟩
    intro v hv
    exact h v (by simp [hv])

theorem json_fieldLiteral {labels : List Value} {value : Value}
    (h : ∀ v ∈ labels ++ [value], S.Offers v) : S.json (Value.fieldLiteral labels value) := by
  unfold Value.fieldLiteral
  split
  · exact (h value (by simp)).literal
  split
  · next pairs hpairs => exact json_obj.2 (makes_literalMembers (offers_pairs? h hpairs)).ofPairs
  · exact (S.arr _).2 (json_literals h)

theorem strengthFirst_offers {vs : List Value} (h : ∀ v ∈ vs, S.Offers v) :
    S.Makes (strengthFirst vs).1 ∧ ∀ v ∈ (strengthFirst vs).2, S.Offers v := by
  unfold strengthFirst
  split
  · next n s rest =>
    have hvs := List.forall_mem_cons.1 h
    exact ⟨makes_cons.2 ⟨hvs.1.literal, makes_nil⟩, hvs.2⟩
  · exact ⟨makes_nil, h⟩

end Supply

/-! ## Steps -/

section
variable {α β σ : Type} {S : Supply} {P Q : α → Prop} {R : β → Prop}

/-- The step gives a good result and reports only what the supply admits. -/
def Draws (S : Supply) (Q : α → Prop) (m : CompileM α) : Prop :=
  ∀ c, Q (m.run c).1 ∧ ∀ d ∈ (m.run c).2.diagnostics, d ∈ c.diagnostics ∨ S.Admits d

abbrev DrawsOr (S : Supply) (Q : α → Prop) (m : Attempt α) : Prop :=
  Draws S (fun r => ∀ a, r = some a → Q a) m.run

theorem draws_pure {a : α} (h : Q a) : Draws S Q (pure a) := fun _ => ⟨h, fun _ hd => .inl hd⟩

theorem Draws.bind {m : CompileM α} {k : α → CompileM β} (hm : Draws S P m)
    (hk : ∀ a, P a → Draws S R (k a)) : Draws S R (m >>= k) := by
  intro c
  have hfirst := hm c
  have hnext := hk (m.run c).1 hfirst.1 (m.run c).2
  rw [StateT.run_bind]
  refine ⟨hnext.1, ?_⟩
  intro d hd
  cases hnext.2 d hd with
  | inl h => exact hfirst.2 d h
  | inr h => exact .inr h

theorem draws_report {p : Problem} {s : Span} (hp : p ≠ .numberOutOfRange) (hs : S.span s) :
    Draws S (fun _ => True) (report p s) := by
  intro c
  refine ⟨trivial, ?_⟩
  intro d hd
  cases List.mem_append.1 hd with
  | inl h => exact .inl h
  | inr h =>
    rw [List.mem_singleton.1 h]
    exact .inr (Supply.admits_reported hp hs)

theorem draws_report_bind {p : Problem} {s : Span} {k : Unit → CompileM β} (hp : p ≠ .numberOutOfRange)
    (hs : S.span s) (hk : Draws S R (k ())) : Draws S R (report p s >>= k) :=
  (draws_report hp hs).bind fun _ _ => hk

theorem draws_of_silent {m : CompileM α}
    (h : ∀ c, Q (m.run c).1 ∧ (m.run c).2.diagnostics = c.diagnostics) :
    Draws S Q m := by
  intro c
  refine ⟨(h c).1, ?_⟩
  intro d hd
  rw [(h c).2] at hd
  exact .inl hd

theorem drawsOr_pure {a : α} (h : Q a) : DrawsOr S Q (pure a) := by
  refine draws_pure ?_
  intro b hb
  cases hb
  exact h

theorem DrawsOr.bind {m : Attempt α} {k : α → Attempt β} (hm : DrawsOr S P m)
    (hk : ∀ a, P a → DrawsOr S R (k a)) : DrawsOr S R (m >>= k) := by
  rw [DrawsOr, OptionT.run_bind]
  refine Draws.bind hm ?_
  intro r hr
  cases r with
  | none => exact draws_pure nofun
  | some a => exact hk a (hr a rfl)

theorem drawsOr_failure : DrawsOr S Q (failure : Attempt α) := draws_pure nofun

theorem Draws.lift {m : CompileM α} (h : Draws S Q m) : DrawsOr S Q (liftM m) := by
  have hrun : (liftM m : Attempt α).run = some <$> m := OptionT.run_monadLift m
  rw [DrawsOr, hrun, ← bind_pure_comp]
  refine h.bind ?_
  intro a ha
  exact drawsOr_pure ha

theorem drawsOr_reject {p : Problem} {s : Span} (hp : p ≠ .numberOutOfRange) (hs : S.span s) :
    DrawsOr S Q (reject p s) := by
  have hreject : (reject p s : Attempt α) = liftM (report p s) >>= fun _ => failure := rfl
  rw [hreject]
  exact (draws_report hp hs).lift.bind fun _ _ => drawsOr_failure

theorem drawsOr_unless {c : Prop} [Decidable c] {p : Problem} {s : Span} {k : Unit → Attempt β}
    (hp : p ≠ .numberOutOfRange) (hs : S.span s) (hk : DrawsOr S R (k ())) :
    DrawsOr S R (if c then reject p s >>= k else k ()) := by
  by_cases hc : c
  · rw [if_pos hc]
    exact (drawsOr_reject (Q := fun _ => False) hp hs).bind fun _ h => h.elim
  · rw [if_neg hc]
    exact hk

end

namespace CompileM

variable {α β σ : Type} {S : Supply} {Q : β → Prop} {I : σ → Prop}

theorem draws_collect {attempt : α → Attempt β} {xs : List α} (h : ∀ x ∈ xs, DrawsOr S Q (attempt x)) :
    Draws S (fun ys => ∀ y ∈ ys, Q y) (collect attempt xs) := by
  induction xs with
  | nil => exact draws_pure nofun
  | cons x xs ih =>
    have hxs := List.forall_mem_cons.1 h
    refine Draws.bind hxs.1 ?_
    intro r hr
    refine (ih hxs.2).bind ?_
    intro more hmore
    refine draws_pure (List.forall_mem_append.2 ⟨?_, hmore⟩)
    intro y hy
    exact hr y (Option.mem_toList.1 hy)

theorem draws_thread {step : α → σ → CompileM σ} {xs : List α}
    (h : ∀ x ∈ xs, ∀ state, I state → Draws S I (step x state)) {state : σ} (hstate : I state) :
    Draws S I (thread step xs state) := by
  induction xs generalizing state with
  | nil => exact draws_pure hstate
  | cons x xs ih =>
    have hxs := List.forall_mem_cons.1 h
    exact (hxs.1 state hstate).bind fun state' hstate' => ih hxs.2 hstate'

theorem draws_orElseKeep {attempt : Attempt σ} {state : σ} (h : DrawsOr S I attempt)
    (hstate : I state) : Draws S I (orElseKeep attempt state) := by
  refine Draws.bind h ?_
  intro r hr
  cases r with
  | none => exact draws_pure hstate
  | some a => exact draws_pure (hr a rfl)

/-! ## Bindings and fields -/

theorem draws_declare (name : String) : Draws S (fun _ => True) (declare name) :=
  draws_of_silent fun _ => ⟨trivial, rfl⟩

theorem draws_aliasField (name : Option String) : Draws S S.Makes (aliasField name) := by
  cases name with
  | none => exact draws_pure Supply.makes_nil
  | some name => exact (draws_declare name).bind fun _ _ => draws_pure (by simp)

theorem draws_reference {v : Value} (h : S.Offers v) : Draws S S.json (reference v) :=
  draws_of_silent fun c => ⟨Supply.json_resolved c.scope v h.literal, rfl⟩

theorem draws_fieldValue (key : String) {v : Value} (h : S.Offers v) :
    Draws S S.json (fieldValue key v) :=
  draws_of_silent fun c => ⟨h.underKey c.scope key, rfl⟩

theorem drawsOr_requiredReference {v : Value} (h : S.span v.span) :
    DrawsOr S S.json (requiredReference v) := by
  cases v with
  | name token s =>
    have hget : Draws S (fun _ => True) (get : CompileM Context) :=
      draws_of_silent fun _ => ⟨trivial, rfl⟩
    refine hget.lift.bind ?_
    intro c _
    split
    · exact drawsOr_pure (S.str _)
    · exact drawsOr_reject (by simp) h
  | str text s => exact drawsOr_pure (S.str _)
  | _ => exact drawsOr_reject (by simp) h

variable {r : Record} {s : Span} {x : Json}

theorem draws_setField (key : String) (hx : S.json x) (hs : S.span s) (hr : S.Makes r) :
    Draws S S.Makes (setField key x s r) := by
  unfold setField
  split
  · exact draws_report_bind (by simp) hs (draws_pure (hr.set key hx))
  · exact draws_pure (hr.set key hx)

theorem draws_setEntry (name key : String) {duplicate : Problem} (hd : duplicate ≠ .numberOutOfRange)
    (hx : S.json x) (hs : S.span s) (hr : S.Makes r) :
    Draws S S.Makes (setEntry name key x duplicate s r) := by
  unfold setEntry
  split
  · next held hheld =>
    have hmakes : S.Makes held := by
      cases hget : r.get? name with
      | none =>
        rw [hget] at hheld
        cases hheld
        exact Supply.makes_nil
      | some v =>
        rw [hget] at hheld
        cases hheld
        exact Supply.json_obj.1 (hr.get? hget)
    have hset := hr.set name (Supply.json_obj.2 (hmakes.set key hx))
    split
    · exact draws_report_bind hd hs (draws_pure hset)
    · exact draws_pure hset
  · exact draws_report_bind (by simp) hs (draws_pure hr)

theorem drawsOr_rowText (field : String) {v : Value} (h : S.Offers v) :
    DrawsOr S (fun _ => True) (rowText field v) := by
  unfold rowText
  split
  · exact drawsOr_pure trivial
  · exact drawsOr_reject (by simp) h.span

theorem drawsOr_setPairs {vs : List Value} (h : ∀ v ∈ vs, S.Offers v) (hr : S.Makes r) :
    DrawsOr S S.Makes (setPairs vs r) := by
  fun_induction setPairs vs r with
  | case1 key value rest r hkey => exact drawsOr_reject (by simp) (h key (by simp)).span
  | case2 key value rest r word hkey ih =>
    have hvalue := h value (by simp)
    refine (draws_fieldValue word hvalue).lift.bind ?_
    intro x hx
    refine (draws_setField word hx (h key (by simp)).span hr).lift.bind ?_
    intro r' hr'
    exact ih r' (fun v hv => h v (by simp [hv])) hr'
  | case3 => exact drawsOr_pure hr

theorem drawsOr_pairFields {vs : List Value} (h : ∀ v ∈ vs, S.Offers v) (hs : S.span s)
    (hr : S.Makes r) : DrawsOr S S.Makes (pairFields vs s r) := by
  unfold pairFields
  split
  · refine drawsOr_reject (by simp) ?_
    cases hlast : vs.getLast? with
    | none => exact hs
    | some v => exact (h v (List.mem_of_getLast? hlast)).span
  · exact drawsOr_setPairs h hr

theorem draws_unknownKeyword (language : String) {t : Statement} (ht : S.States t) :
    Draws S (fun _ => True) (unknownKeyword language t) := by
  refine draws_report ?_ ht.span
  cases t.keyword? <;> exact nofun

theorem drawsOr_unknownKeyword (language : String) {t : Statement} (ht : S.States t) :
    DrawsOr S Q (do unknownKeyword language t; failure) :=
  (draws_unknownKeyword language ht).lift.bind fun _ _ => drawsOr_failure

end CompileM

/-! ## Relationships -/

section
variable {S : Supply}

theorem drawsOr_relationshipEnds (required : Bool) {source target : Value} (hsource : S.Offers source)
    (htarget : S.Offers target) :
    DrawsOr S (fun ends => S.json ends.1 ∧
      S.json ends.2) (relationshipEnds required source target) := by
  cases required with
  | true =>
    have hlift : ∀ {v : Value}, S.Offers v →
      DrawsOr S (fun r : Option Json => ∀ x, r = some x → S.json x)
        (OptionT.lift (requiredReference v).run) := fun hv =>
          Draws.lift (drawsOr_requiredReference hv.span)
    refine (hlift hsource).bind ?_
    intro first hfirst
    refine (hlift htarget).bind ?_
    intro second hsecond
    cases first with
    | none => exact drawsOr_failure
    | some first =>
      cases second with
      | none => exact drawsOr_failure
      | some second => exact drawsOr_pure ⟨hfirst first rfl, hsecond second rfl⟩
  | false =>
    refine (draws_reference hsource).lift.bind ?_
    intro first hfirst
    refine (draws_reference htarget).lift.bind ?_
    intro second hsecond
    exact drawsOr_pure ⟨hfirst, hsecond⟩

theorem drawsOr_labelAlias {label : Option Value} (h : ∀ v ∈ label, S.Offers v) :
    DrawsOr S S.Makes (labelAlias label) := by
  cases label with
  | none => exact drawsOr_pure Supply.makes_nil
  | some label =>
    refine (drawsOr_rowText "as" (h label rfl)).bind ?_
    intro name _
    exact (draws_aliasField (some name)).lift

theorem drawsOr_relationship (required : Bool) {s : Statement} (h : S.States s) :
    DrawsOr S S.Makes (s.relationship required) := by
  unfold Statement.relationship
  split
  · next key label kind source target values span =>
    have hall : ∀ v ∈ label.toList ++ [kind, source, target] ++ values, S.Offers v := h.values
    have hvalues := Supply.strengthFirst_offers fun v (hv : v ∈ values) => hall v (by simp [hv])
    generalize strengthFirst values = parts at hvalues ⊢
    obtain ⟨strength, rest⟩ := parts
    refine (drawsOr_rowText "kind" (hall kind (by simp))).bind ?_
    intro kind _
    refine (drawsOr_relationshipEnds required (hall source (by simp)) (hall target (by simp))).bind ?_
    intro (first, second) ⟨hfirst, hsecond⟩
    refine (drawsOr_labelAlias fun v hv => hall v (by simp [Option.mem_def.1 hv])).bind ?_
    intro bound hbound
    refine drawsOr_pairFields hvalues.2 h.span ?_
    simp [hfirst, hsecond, hbound, hvalues.1]
  · exact drawsOr_failure

end

/-! ## Arguments -/

namespace Args

variable {S : Supply} {a : Args}

theorem feeds_of {s : Statement} (h : S.States s) : S.Feeds (.of s) := by
  refine ⟨h.span, ?_⟩
  have hvalues := h.values
  cases s with
  | rel | mutate | origin | bare => exact nofun
  | _ => exact hvalues

theorem feeds_drop (h : S.Feeds a) (n : Nat) : S.Feeds { a with rest := a.rest.drop n } :=
  ⟨h.1, fun v hv => h.2 v (List.mem_of_mem_drop hv)⟩

theorem feeds_marker (h : S.Feeds a) (word : String) : S.Feeds (a.marker word).2 := by
  unfold marker
  split
  · next v rest hrest =>
    have htail : S.Feeds { a with rest := rest } := ⟨h.1, fun w hw => h.2 w (by simp [hrest, hw])⟩
    split
    · exact htail
    · exact h
  · exact h

theorem feeds_text? (h : S.Feeds a) : S.Feeds a.text?.2 := by
  unfold text?
  split
  · exact feeds_drop h 1
  · exact h

theorem offers_flat (h : S.Feeds a) : ∀ v ∈ a.flat, S.Offers v := by
  intro v hv
  obtain ⟨w, hw, hv⟩ := List.mem_flatMap.1 hv
  have hoffers := h.2 w hw
  cases w with
  | array items s => exact hoffers.items v hv
  | _ => exact List.mem_singleton.1 hv ▸ hoffers

theorem drawsOr_value (h : S.Feeds a) (what : String) :
    DrawsOr S (fun p => S.Offers p.1 ∧ S.Feeds p.2) (a.value what) := by
  unfold value
  split
  · next v rest hrest =>
    refine drawsOr_pure ⟨h.2 v (by simp [hrest]), h.1, ?_⟩
    intro w hw
    exact h.2 w (by simp [hrest, hw])
  · exact drawsOr_reject (by simp) h.1

theorem drawsOr_text (h : S.Feeds a) (what : String) :
    DrawsOr S (fun p => S.Feeds p.2) (a.text what) := by
  refine (drawsOr_value h what).bind ?_
  intro (v, b) ⟨hv, hb⟩
  dsimp only
  split
  · exact drawsOr_pure hb
  · exact drawsOr_reject (by simp) hv.span

theorem drawsOr_number (h : S.Feeds a) (what : String) :
    DrawsOr S (fun p => S.json (.ofNumber p.1) ∧ S.Feeds p.2) (a.number what) := by
  refine (drawsOr_value h what).bind ?_
  intro (v, b) ⟨hv, hb⟩
  dsimp only at hv hb ⊢
  split
  · next n hn =>
    cases v with
    | num m s =>
      cases hn
      exact drawsOr_pure ⟨hv.literal, hb⟩
    | _ => cases hn
  · exact drawsOr_reject (by simp) hv.span

theorem drawsOr_finish (h : S.Feeds a) : DrawsOr S (fun _ => True) a.finish := by
  unfold finish
  split
  · exact drawsOr_pure trivial
  · next extra rest hrest => exact drawsOr_reject (by simp) (h.2 extra (by simp [hrest])).span

end Args

section
variable {S : Supply} {s : Statement}

theorem drawsOr_boundFields {comparison : Comparator × Number × Option Number} {span : Span}
    (hspan : S.span span) (h : ∀ n ∈ comparison.2.1 :: comparison.2.2.toList, S.Counts n) :
    DrawsOr S S.Makes (boundFields comparison span) := by
  obtain ⟨comparator, n, upper⟩ := comparison
  have hn : S.json (.ofNumber n) := (h n (by simp)).1
  have hupper : S.json (.ofNumber (upper.getD n)) := by
    cases upper with
    | none => exact hn
    | some m => exact (h m (by simp)).1
  unfold boundFields
  dsimp only
  split
  · exact drawsOr_reject (by simp) hspan
  · cases comparator with
    | ge | le | eq => exact drawsOr_pure (by simp [hn, hupper])
    | gt | lt => exact drawsOr_reject (by simp) hspan

theorem comparison?_counts (h : S.States s) {comparison : Comparator × Number × Option Number}
    (hc : s.comparison? = some comparison) :
    ∀ n ∈ comparison.2.1 :: comparison.2.2.toList, S.Counts n := by
  have hamounts := h.amounts
  cases s with
  | predicate word args comparator n upper span =>
    cases hc
    exact hamounts
  | _ => cases hc

end

end Worldbook
