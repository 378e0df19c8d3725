import Worldbook.Proofs.Arguments
import Worldbook.Proofs.Contributions

/-!
# Statements that are skipped

Most attempts only look at the bindings, so one that gives up leaves them as they were, and the
statements around it compile as if it were not there. A few bind a name first and check what is left
of their arguments afterwards: a relationship with a label, `create` on one line and
`for_each_related` with an alias. `Leaks` names them.
-/

namespace Worldbook

open CompileM Args

/-! ## Giving up -/

/-- The attempt leaves the bindings as they are, and what it gives has the property. -/
def Looks {α : Type} (m : Attempt α) (Q : α → Prop) : Prop :=
  ∀ c, (m.run.run c).2.scope = c.scope ∧ ∀ a, (m.run.run c).1 = some a → Q a

def Sure {α : Type} (m : Attempt α) : Prop := ∀ c, (m.run.run c).1 ≠ none

/-- An attempt that gives up leaves bindings that are related to those before it. -/
def Leaves {α : Type} (R : Scope → Scope → Prop) (m : Attempt α) : Prop :=
  ∀ c, (m.run.run c).1 = none → R c.scope (m.run.run c).2.scope

def Untouched (s s' : Scope) : Prop := s' = s

section
variable {α β : Type} {R : Scope → Scope → Prop}

theorem run_bind (m : Attempt α) (k : α → Attempt β) (c : Context) :
    (m >>= k).run.run c = match m.run.run c with
      | (some a, c') => (k a).run.run c'
      | (none, c') => (none, c') := by
  rw [OptionT.run_bind, Option.elimM, StateT.run_bind]
  cases m.run.run c with
  | mk r c' => cases r <;> rfl

theorem looks_pure {a : α} {Q : α → Prop} (h : Q a) : Looks (pure a) Q := by
  intro c
  refine ⟨rfl, ?_⟩
  intro b hb
  cases hb
  exact h

theorem looks_reject (p : Problem) (span : Span) (Q : α → Prop) : Looks (reject p span) Q := by
  intro c
  refine ⟨rfl, ?_⟩
  intro b hb
  cases hb

theorem Looks.bind {m : Attempt α} {k : α → Attempt β} {P : α → Prop} {Q : β → Prop} (hm : Looks m P)
    (hk : ∀ a, P a → Looks (k a) Q) : Looks (m >>= k) Q := by
  intro c
  rw [run_bind]
  obtain ⟨hscope, hgives⟩ := hm c
  cases h : m.run.run c with
  | mk r c' =>
    rw [h] at hscope hgives
    cases r with
    | none => exact ⟨hscope, fun b hb => by cases hb⟩
    | some a =>
      obtain ⟨hscope', hgives'⟩ := hk a (hgives a rfl) c'
      exact ⟨hscope'.trans hscope, hgives'⟩

theorem Fixed.looks {m : Attempt α} {Q : α → Prop} (h : Fixed m Q) : Looks m Q := by
  intro c
  obtain ⟨r, new, hruns, hgives, -⟩ := h
  have hrun := hruns c.scope c.diagnostics
  rw [show m.run.run c = _ from hrun]
  exact ⟨rfl, hgives⟩

theorem looks_lift {m : CompileM α} (h : ∀ c, (m.run c).2.scope = c.scope) :
    Looks (liftM m : Attempt α) fun _ => True := by
  intro c
  have hrun : (liftM m : Attempt α).run = some <$> m := OptionT.run_monadLift m
  rw [hrun, StateT.run_map]
  exact ⟨h c, fun _ _ => trivial⟩

theorem sure_pure (a : α) : Sure (pure a : Attempt α) := by
  intro c h
  cases h

theorem sure_lift (m : CompileM α) : Sure (liftM m : Attempt α) := by
  intro c h
  have hrun : (liftM m : Attempt α).run = some <$> m := OptionT.run_monadLift m
  rw [hrun, StateT.run_map] at h
  cases h

theorem Sure.bind {m : Attempt α} {k : α → Attempt β} (hm : Sure m) (hk : ∀ a, Sure (k a)) :
    Sure (m >>= k) := by
  intro c
  rw [run_bind]
  cases h : m.run.run c with
  | mk r c' =>
    cases r with
    | none => exact absurd (congrArg Prod.fst h) (hm c)
    | some a => exact hk a c'

theorem Looks.leaves {m : Attempt α} {Q : α → Prop} (h : Looks m Q) :
    Leaves Untouched m := fun c _ => (h c).1

theorem Sure.leaves {m : Attempt α} (h : Sure m) : Leaves R m := fun c hnone => absurd hnone (h c)

theorem Leaves.imp {R' : Scope → Scope → Prop} {m : Attempt α} (h : Leaves R m)
    (hR : ∀ s s', R s s' → R' s s') : Leaves R' m := fun c hnone => hR _ _ (h c hnone)

/-- What only looks can stand in front, if nothing bound is one of the outcomes. -/
theorem Leaves.after {m : Attempt α} {k : α → Attempt β} {P : α → Prop} (hm : Looks m P)
    (hR : ∀ s, R s s) (hk : ∀ a, P a → Leaves R (k a)) : Leaves R (m >>= k) := by
  intro c
  rw [run_bind]
  obtain ⟨hscope, hgives⟩ := hm c
  cases h : m.run.run c with
  | mk r c' =>
    rw [h] at hscope hgives
    dsimp only at hscope hgives ⊢
    rw [← hscope]
    cases r with
    | none => exact fun _ => hR c'.scope
    | some a => exact hk a (hgives a rfl) c'

theorem Leaves.before {m : Attempt α} {k : α → Attempt β} (hm : Leaves R m) (hk : ∀ a, Sure (k a)) :
    Leaves R (m >>= k) := by
  intro c
  rw [run_bind]
  have hc := hm c
  cases h : m.run.run c with
  | mk r c' =>
    rw [h] at hc
    cases r with
    | none => exact fun _ => hc rfl
    | some a => exact fun hnone => absurd hnone (hk a c')

/-- A name is bound, and what comes after it only looks. -/
theorem leaves_declared {m : CompileM α} {name : String}
    (hm : ∀ c, (m.run c).2.scope = (c.scope.declare name).1) {k : α → Attempt β} {Q : β → Prop}
    (hk : ∀ a, Looks (k a) Q) : Leaves (fun s s' => s' = (s.declare name).1) (liftM m >>= k) := by
  intro c _
  have hrun : (liftM m : Attempt α).run = some <$> m := OptionT.run_monadLift m
  rw [run_bind, hrun, StateT.run_map]
  exact ((hk (m.run c).1 (m.run c).2).1).trans (hm c)

/-- A statement that does not have the form it needs is refused before anything is bound. -/
theorem leaves_guard {fits : Bool} {p : Problem} {span : Span} {k : Unit → Attempt β} (hR : ∀ s, R s s)
    (h : fits = true → Leaves R (k ())) : Leaves R (if !fits then reject p span >>= k else k ()) := by
  cases fits with
  | true => exact h rfl
  | false => exact .after (looks_reject p span fun _ => False) hR fun _ hfalse => hfalse.elim

theorem Leaves.of_runs {m : Attempt α} (h : Leaves R m) {s s' : Scope} {new : List Diagnostic}
    (hrun : Runs m.run s none s' new) : R s s' := by
  have hc := h ⟨s, []⟩
  rw [hrun []] at hc
  exact hc rfl

end

theorem Args.sure_finish {a : Args} (h : a.rest = []) : Sure a.finish := by
  unfold finish
  rw [h]
  exact sure_pure ()

/-! ## References and pairs -/

namespace CompileM

theorem looks_reference (v : Value) : Looks (liftM (reference v) : Attempt Json) fun _ => True :=
  looks_lift fun _ => rfl

theorem looks_requiredReference (v : Value) : Looks (requiredReference v) fun _ => True := by
  cases v with
  | name token span =>
    intro c
    rw [run_requiredReference token span c.scope c.diagnostics]
    cases c.scope.require? token with
    | some found => exact looks_pure trivial c
    | none => exact looks_reject _ _ (fun _ => True) c
  | str text span => exact looks_pure trivial
  | _ => exact looks_reject _ _ _

theorem scope_setField (key : String) (value : Json) (span : Span) (r : Record) (c : Context) :
    ((setField key value span r).run c).2.scope = c.scope := by
  unfold setField
  split <;> rfl

theorem looks_setPairs (vs : List Value) (r : Record) : Looks (setPairs vs r) fun _ => True := by
  fun_induction setPairs vs r with
  | case1 => exact looks_reject _ _ _
  | case2 key value rest r word h ih =>
    have hvalue : Looks (liftM (fieldValue word value) : Attempt Json) fun _ => True :=
      looks_lift fun _ => rfl
    refine hvalue.bind fun found _ => ?_
    exact (looks_lift (scope_setField word found key.span r)).bind fun r _ => ih r
  | case3 => exact looks_pure trivial

theorem looks_pairFields (vs : List Value) (span : Span) (r : Record) :
    Looks (pairFields vs span r) fun _ => True := by
  unfold pairFields
  split
  · exact looks_reject _ _ _
  · exact looks_setPairs vs r

theorem sure_setPairs {vs : List Value} (h : (Value.pairs? vs).isSome = true) (r : Record) :
    Sure (setPairs vs r) := by
  fun_induction setPairs vs r with
  | case1 key value rest r hkey => simp [Value.pairs?, hkey] at h
  | case2 key value rest r word hkey ih =>
    have hrest : (Value.pairs? rest).isSome = true := by
      cases hp : Value.pairs? rest with
      | some more => rfl
      | none => simp [Value.pairs?, hkey, hp] at h
    exact (sure_lift _).bind fun _ => (sure_lift _).bind fun r => ih r hrest
  | case3 => exact sure_pure _

theorem sure_pairFields {vs : List Value} (h : (Value.pairs? vs).isSome = true) (span : Span)
    (r : Record) : Sure (pairFields vs span r) := by
  have heven : ∀ vs : List Value, (Value.pairs? vs).isSome = true → vs.length % 2 = 0 := by
    intro vs
    fun_induction Value.pairs? vs with
    | case1 => intro _; rfl
    | case2 => intro h; cases h
    | case3 key value rest ih =>
      intro h
      have hrest : (Value.pairs? rest).isSome = true := by
        cases hp : Value.pairs? rest with
        | some more => rfl
        | none => simp [hp] at h
      have := ih hrest
      simp only [List.length_cons]
      omega
  unfold pairFields
  rw [if_neg (by rw [heven vs h]; decide)]
  exact sure_setPairs h r

end CompileM

/-! ## Relationships and creations -/

theorem looks_relationshipEnds (required : Bool) (source target : Value) :
    Looks (relationshipEnds required source target) fun _ => True := by
  have hfound (v : Value) : Looks (liftM (requiredReference v).run : Attempt (Option Json)) fun _ =>
    True :=
    looks_lift fun c => (looks_requiredReference v c).1
  unfold relationshipEnds
  cases required with
  | true =>
    refine (hfound source).bind fun first _ => (hfound target).bind fun second _ => ?_
    cases first with
    | none => exact fun c => ⟨rfl, nofun⟩
    | some first =>
      cases second with
      | none => exact fun c => ⟨rfl, nofun⟩
      | some second => exact looks_pure trivial
  | false =>
    exact (looks_reference source).bind fun _ _ => (looks_reference target).bind fun _ _ =>
      looks_pure trivial

theorem scope_aliasField (name : String) (c : Context) :
    ((aliasField (some name)).run c).2.scope = (c.scope.declare name).1 := rfl

/-- What a name behind a relationship or `create` leaves, where the arguments
behind it are no pairs. -/
inductive Statement.Leaks : Statement → String → Prop
  | label (key : String) {label : Value} (kind source target : Value) {values : List Value}
      (span : Span) {name : String} (hname : label.text? = some name)
      (hpairs : Value.pairs? (strengthFirst values).2 = none) :
      Leaks (.rel key (some label) kind source target values span) name
  | creation {t : Statement} {first : Value} {more : List Value} {name : String}
      (ht : t.positional = first :: more) (hblock : t.isBlock = false) (hname : first.text? = some name)
      (hpairs : Value.pairs? more = none) : Leaks t name
  | «alias» (read : List Value) (extra : Value) (more : List Value) {t : Statement}
      {marker value : Value} {name : String}
      (ht : t.positional = read ++ marker :: value :: extra :: more)
      (hmarker : marker.isWord "as" = true) (hname : value.text? = some name)
      (hkeyword : t.plainKeyword? = some "for_each_related") : Leaks t name

/-- Nothing has been bound, or one of the names that a statement binds before it is found wrong. -/
def Statement.Trace (t : Statement) (s s' : Scope) : Prop :=
  s' = s ∨ ∃ name, t.Leaks name ∧ s' = (s.declare name).1

theorem Statement.leaves_relationship (t : Statement) (required : Bool) :
    Leaves t.Trace (t.relationship required) := by
  cases t with
  | rel key label kind source target values span =>
    have hrefl (s : Scope) : Statement.Trace (.rel key label kind source target values span) s s :=
      .inl rfl
    unfold Statement.relationship
    refine .after (fixed_rowText "kind" kind).looks hrefl fun kind _ => ?_
    refine .after (looks_relationshipEnds required source target) hrefl fun ends _ => ?_
    dsimp only
    cases hpairs : Value.pairs? (strengthFirst values).2 with
    | some pairs =>
      refine Leaves.before ?_ fun bound => sure_pairFields (by rw [hpairs]; rfl) span _
      unfold labelAlias
      cases label with
      | none => exact (sure_pure []).leaves
      | some label =>
        exact .after (fixed_rowText "as" label).looks hrefl fun name _ =>
          (sure_lift (aliasField (some name))).leaves
    | none =>
      cases label with
      | none =>
        have hnone : Looks (labelAlias none) fun _ => True := looks_pure trivial
        exact .after hnone hrefl fun bound _ => (looks_pairFields _ span _).leaves.imp fun _ _ => .inl
      | some label =>
        rw [labelAlias, bind_assoc]
        refine .after (fixed_rowText "as" label).looks hrefl fun name hname => ?_
        refine Leaves.imp (leaves_declared (scope_aliasField name) fun bound =>
          looks_pairFields _ span _) ?_
        intro s s' hs
        exact .inr ⟨name, .label key _ source target span hname hpairs, hs⟩
  | _ => exact fun c _ => .inl rfl

theorem Body.leaves_creation (t : Statement) (nested : Nested) (r : Record) :
    Leaves t.Trace (creation t nested r) := by
  have hrefl (s : Scope) : t.Trace s s := .inl rfl
  unfold creation
  cases hpos : t.positional with
  | nil => exact (sure_pure r).leaves
  | cons first more =>
    refine .after (fixed_rowText "create" first).looks hrefl fun name hname => ?_
    by_cases hblock : t.isBlock = true
    · simp only [if_pos hblock]
      refine Sure.leaves ((sure_lift _).bind fun reference => ?_)
      cases more with
      | nil => exact (sure_lift _).bind fun entry => sure_pure _
      | cons extra more =>
        exact (sure_lift _).bind fun _ => (sure_lift _).bind fun entry => sure_pure _
    · simp only [if_neg hblock]
      cases hpairs : Value.pairs? more with
      | some pairs =>
        refine Sure.leaves ((sure_lift _).bind fun reference => ?_)
        exact (sure_pairFields (by rw [hpairs]; rfl) t.span _).bind fun entry => sure_pure _
      | none =>
        have hdeclare (c : Context) : ((declare name).run c).2.scope = (c.scope.declare name).1 := rfl
        refine Leaves.imp (leaves_declared hdeclare fun reference =>
          (looks_pairFields more t.span _).bind fun entry _ =>
            looks_pure (Q := fun _ => True) trivial) ?_
        intro s s' hs
        exact .inr ⟨name, .creation hpos (by simpa using hblock) hname hpairs, hs⟩

/-! ## Lines that only look -/

theorem Looks.imp {α : Type} {m : Attempt α} {P Q : α → Prop} (h : Looks m P) (hPQ : ∀ a, P a → Q a) :
    Looks m Q :=
  fun c => ⟨(h c).1, fun a ha => hPQ a ((h c).2 a ha)⟩

def Alignment.looking : Alignment where
  move := id
  span _ := True
  value _ := True
  json _ _ _ := True
  Reads R m _ := Looks m fun a => ∃ b, R a b
  span_value _ := trivial
  literal _ _ := trivial
  items _ _ _ := trivial
  str _ _ := trivial
  arr _ := trivial
  obj _ := trivial
  pure h := looks_pure ⟨_, h⟩
  bind hm hk := hm.bind fun a ⟨b, hab⟩ => hk a b hab
  reject _ _ _ := looks_reject _ _ _
  reference _ := (looks_reference _).imp fun x _ => ⟨x, trivial⟩
  required _ := (looks_requiredReference _).imp fun x _ => ⟨x, fun _ => trivial⟩

theorem Alignment.states_looking (s : Statement) : looking.States s :=
  ⟨trivial, fun _ _ => trivial, fun _ _ => trivial, fun _ _ => ⟨fun _ => trivial, fun _ => trivial⟩⟩

theorem looks_of_reads {α β : Type} {R : α → β → Prop} {m : Attempt α} {m' : Attempt β}
    (h : Alignment.looking.Reads R m m') : Looks m fun _ => True := Looks.imp h fun _ _ => trivial

/-- A keyword that only looks at the bindings on a line, and gives its fields
in any case as a block. -/
theorem leaves_keyword {isBlock fits : Bool} {problem : Problem} {span : Span} {fields : Attempt Record}
    {entry : Record → Json} (hline : isBlock = false → Looks fields fun _ => True)
    (hblock : isBlock = true → fits = true → Sure fields) : Leaves Untouched (do
      if !fits then reject problem span
      let fs ← fields
      return entry fs) := by
  refine leaves_guard (fun _ => rfl) fun hfits => ?_
  cases hk : isBlock with
  | true => exact Sure.leaves ((hblock hk hfits).bind fun fs => sure_pure _)
  | false => exact ((hline hk).bind fun fs _ => looks_pure (Q := fun _ => True) trivial).leaves

namespace Condition

theorem looks_fields {k : Keyword} (s : Statement) (n : Nested) (hk : k.isBlock = false) :
    Looks (k.fields s n) fun _ => True := by
  have hn : k.isBlock = true → Alignment.looking.Bodies n n := fun h => by simp [hk] at h
  exact looks_of_reads (k.reads_fields (Alignment.states_looking s) hn)

theorem sure_fields {k : Keyword} (hk : k.isBlock = true) {s : Statement} (hs : s.positional = [])
    (n : Nested) : Sure (k.fields s n) := by
  have hfinish : Sure (Args.of s).finish := Args.sure_finish hs
  unfold Keyword.fields
  cases k with
  | and | or | graphPath => exact (sure_lift _).bind fun found => hfinish.bind fun _ => sure_pure _
  | generic => exact sure_lift _
  | _ => cases hk

theorem leaves_compile (s : Statement) (n : Nested) : Leaves Untouched (compile s n) := by
  unfold compile
  cases s.plainKeyword?.bind Keyword.ofWord? with
  | none => exact (fixed_unknownKeyword "condition" s fun _ => True).looks.leaves
  | some k =>
    exact leaves_keyword (looks_fields s n) fun hk hfits => sure_fields hk (fits_of_isBlock hfits hk) n

end Condition

namespace Filter

theorem looks_fields {k : Keyword} (s : Statement) (n : Nested) (hk : k.isBlock = false) :
    Looks (k.fields s n) fun _ => True := by
  have hn : k.isBlock = true → Alignment.looking.Bodies n n := fun h => by simp [hk] at h
  exact looks_of_reads (k.reads_fields (Alignment.states_looking s) hn)

theorem sure_fields {k : Keyword} (hk : k.isBlock = true) {s : Statement} (hs : s.positional = [])
    (n : Nested) : Sure (k.fields s n) := by
  have hfinish : Sure (Args.of s).finish := Args.sure_finish hs
  unfold Keyword.fields
  cases k with
  | graphPath => exact (sure_lift _).bind fun found => hfinish.bind fun _ => sure_pure _
  | generic => exact sure_lift _
  | _ => cases hk

theorem leaves_compile (s : Statement) (n : Nested) : Leaves Untouched (compile s n) := by
  unfold compile
  cases s.plainKeyword?.bind Keyword.ofWord? with
  | none => exact (fixed_unknownKeyword "filter" s fun _ => True).looks.leaves
  | some k =>
    exact leaves_keyword (looks_fields s n) fun hk hfits => sure_fields hk (fits_of_isBlock hfits hk) n

end Filter

/-! ## Path steps -/

namespace Path

theorem leaves_step (s : Statement) (n : Nested) : Leaves Untouched (step s n) := by
  unfold step
  rcases leadingAlias (Args.of s) with ⟨name, args⟩
  dsimp only
  refine .after ((args.marker "via").2.fixed_text _).looks (fun _ => rfl) fun ⟨kind, args⟩ _ => ?_
  refine .after (args.fixed_text _).looks (fun _ => rfl) fun ⟨direction, args⟩ _ => ?_
  refine .after (args.fixed_text _).looks (fun _ => rfl) fun ⟨targetKind, args⟩ _ => ?_
  refine .after (args.fixed_text _).looks (fun _ => rfl) fun ⟨targetSubtype, args⟩ _ => ?_
  refine .after args.text?.2.fixed_finish.looks (fun _ => rfl) fun _ _ => ?_
  exact Sure.leaves ((sure_lift _).bind fun bound => (sure_lift _).bind fun record => sure_pure _)

end Path

/-! ## Mutations -/

namespace Mutation

theorem looks_entity (args : Args) : Looks (entity args) fun p => args.Follow p.2 := by
  refine (args.fixed_value _).looks.bind fun ⟨v, args⟩ hv => ?_
  exact (looks_requiredReference v).bind fun found _ => looks_pure (.of_cons hv)

theorem looks_entityAndKind (args : Args) : Looks (entityAndKind args) fun p => args.Follow p.2 := by
  refine (looks_entity args).bind fun ⟨e, args₁⟩ h => ?_
  refine (args₁.fixed_text _).looks.bind fun ⟨kind, args₂⟩ ⟨v, _, hv⟩ => ?_
  exact looks_pure (h.trans (.of_cons hv))

theorem looks_fields {k : Keyword} (hk : k.isBlock = false) (s : Statement) (n : Nested) :
    Looks (k.fields s n) fun _ => True := by
  have hn : k.isBlock = true → Alignment.looking.Bodies n n := fun h => by simp [hk] at h
  exact looks_of_reads (k.reads_fields (Alignment.states_looking s) hn)

theorem looks_ofMutate (k : Keyword) (subject : Value) (change : Change) (amount : Number) :
    Looks (ofMutate k subject change amount) fun _ => True :=
  looks_of_reads (reads_ofMutate k trivial change ⟨fun _ => trivial, fun _ => trivial⟩)

/-- The alias is bound before the arguments behind it are found to be too many. -/
theorem leaves_forEachRelated {s : Statement} (hs : s.plainKeyword? = some "for_each_related")
    (n : Nested) : Leaves s.Trace (Keyword.forEachRelated.fields s n) := by
  have hrefl (b : Scope) : s.Trace b b := .inl rfl
  unfold Keyword.fields
  refine .after (looks_entityAndKind (Args.of s)) hrefl fun ⟨subject, args₁⟩ h₁ => ?_
  refine .after (fixed_direction args₁).looks hrefl fun ⟨dir, args₂⟩ h₂ => ?_
  refine .after (args₂.fixed_markedText "as" _).looks hrefl fun ⟨name, args₃⟩ h₃ => ?_
  dsimp only at h₁ h₂ h₃ ⊢
  cases name with
  | none =>
    have hnone : Looks (liftM (aliasField none) : Attempt Record) fun _ => True :=
      looks_lift fun _ => rfl
    refine .after hnone hrefl fun bound _ => .after args₃.fixed_finish.looks hrefl fun _ _ => ?_
    exact Sure.leaves ((sure_lift _).bind fun actions => sure_pure _)
  | some name =>
    obtain ⟨m, v, hm, hv, hrest⟩ := h₃
    cases hextra : args₃.rest with
    | nil =>
      refine Sure.leaves ((sure_lift _).bind fun bound => (Args.sure_finish hextra).bind fun _ => ?_)
      exact (sure_lift _).bind fun actions => sure_pure _
    | cons extra more =>
      have hfinish (k : Unit → Attempt Record) : Looks (args₃.finish >>= k) fun _ => True :=
        args₃.fixed_finish.looks.bind fun _ hnil =>
          absurd (hextra.symm.trans hnil) (List.cons_ne_nil extra more)
      refine Leaves.imp (leaves_declared (scope_aliasField name) fun bound => hfinish _) ?_
      intro b b' hb
      obtain ⟨read, hread⟩ := h₁.trans h₂
      refine .inr ⟨name, .alias read extra more ?_ hm hv hs, hb⟩
      rw [← hextra, ← hrest, ← hread]
      rfl

/-- A conditional without labels, whose arguments are right: what it can lack are branches. -/
def IsPlainConditional (s : Statement) : Prop :=
  s.plainKeyword? = some "conditional" ∧ s.positional = []

theorem leaves_fields {k : Keyword} {s : Statement} (hs : s.plainKeyword? = some k.word) (n : Nested) :
    Leaves (fun b b' => s.Trace b b' ∨ IsPlainConditional s) (k.fields s n) := by
  cases hk : k.isBlock with
  | false => exact (looks_fields hk s n).leaves.imp fun _ _ hb => .inl (.inl hb)
  | true =>
    cases k with
    | forEachRelated => exact (leaves_forEachRelated hs n).imp fun _ _ => .inl
    | conditional =>
      cases hrest : s.positional with
      | nil => exact fun _ _ => .inr ⟨hs, hrest⟩
      | cons extra more =>
        have hlooks : Looks (Keyword.conditional.fields s n) fun _ => True :=
          (Args.of s).fixed_finish.looks.bind fun _ hnil =>
            absurd (hrest.symm.trans hnil) (List.cons_ne_nil extra more)
        exact hlooks.leaves.imp fun _ _ hb => .inl (.inl hb)
    | generic =>
      refine .after (Args.of s).fixed_finish.looks (fun b => .inl (.inl rfl)) fun _ _ => ?_
      exact Sure.leaves (sure_lift (n.fields []))
    | _ => cases hk

theorem leaves_compile (s : Statement) (n : Nested) :
    Leaves (fun b b' => s.Trace b b' ∨ IsPlainConditional s) (compile s n) := by
  have hsame {m : Attempt Json} (h : Looks m fun _ => True) :
      Leaves (fun b b' => s.Trace b b' ∨ IsPlainConditional s) m :=
        h.leaves.imp fun _ _ hb => .inl (.inl hb)
  unfold compile
  cases hk : Keyword.ofStatement? s with
  | none => exact hsame (fixed_unknown s _).looks
  | some k =>
    refine leaves_guard (fun b => .inl (.inl rfl)) fun _ => ?_
    have hword (h : s.plainKeyword?.bind Keyword.ofWord? = some k) : s.plainKeyword? = some k.word := by
      obtain ⟨word, hplain, hfind⟩ := Option.bind_eq_some_iff.1 h
      have hfound : (k.word == word) = true :=
        List.find?_some (p := fun k => Keyword.word k == word) hfind
      rw [hplain, eq_of_beq hfound]
    cases s with
    | mutate target subject change amount span =>
      exact hsame ((looks_ofMutate k subject change amount).bind fun fields _ => looks_pure trivial)
    | rel key label kind source target values span =>
      have hrel := Statement.leaves_relationship (.rel key label kind source target values span) true
      exact (hrel.before fun entry => sure_pure _).imp fun _ _ => .inl
    | _ => exact (leaves_fields (hword hk) n).before fun fields => sure_pure _

end Mutation

end Worldbook
