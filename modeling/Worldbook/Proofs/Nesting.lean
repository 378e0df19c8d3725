import Worldbook.Proofs.Progress

/-!
# Statements in order

The pieces of a line stand in it one after the other, and every shape keeps
that order for the values it takes. The short forms put single values into
fields and arrays of their own, which have the spans of those values.
-/

namespace Worldbook

/-- The span of a statement lies in the text, what stands in the statement
stands in its span, in order, and its own numbers are such as can be written. -/
structure Statement.Placed (o : Cursor) (s : Statement) : Prop where
  holds : o.Holds s.span
  nests : s.span.Nests (s.values.map Value.span ++ s.body.map Statement.span)
  values : ∀ v ∈ s.values, v.Sound o
  narrow : ∀ n ∈ s.amounts, n.IsNarrow

def Statement.Sound (o : Cursor) (s : Statement) : Prop := ∀ t ∈ s.tree, t.Placed o

def Piece.Sound (o : Cursor) : Piece → Prop
  | .value v => v.Sound o
  | .op _ s => o.Holds s

structure ValuesIn (o : Cursor) (line : Span) (vs : List Value) : Prop where
  nests : line.Nests (vs.map Value.span)
  sound : ∀ v ∈ vs, v.Sound o

structure PiecesIn (o : Cursor) (line : Span) (ps : List Piece) : Prop where
  place : o.Holds line
  nests : line.Nests (ps.map Piece.span)
  sound : ∀ p ∈ ps, p.Sound o

section
variable {o : Cursor} {line : Span}

theorem Value.Sound.holds {v : Value} (h : v.Sound o) : o.Holds v.span := (sound_iff.1 h).1.holds

theorem Value.Sound.parts {v : Value} (h : v.Sound o) : ValuesIn o v.span v.parts :=
  ⟨(sound_iff.1 h).1.nests, (sound_iff.1 h).2⟩

theorem Piece.Sound.holds {p : Piece} (h : p.Sound o) : o.Holds p.span := by
  cases p with
  | value v => exact Value.Sound.holds h
  | op operator s => exact h

theorem ValuesIn.sublist {vs ws : List Value} (h : ValuesIn o line ws) (hsub : vs.Sublist ws) :
    ValuesIn o line vs :=
  ⟨h.nests.sublist (hsub.map _), fun v hv => h.sound v (hsub.subset hv)⟩

theorem PiecesIn.sublist {ps qs : List Piece} (h : PiecesIn o line qs) (hsub : ps.Sublist qs) :
    PiecesIn o line ps :=
  ⟨h.place, h.nests.sublist (hsub.map _), fun p hp => h.sound p (hsub.subset hp)⟩

theorem PiecesIn.tail {p : Piece} {ps : List Piece} (h : PiecesIn o line (p :: ps)) :
    PiecesIn o line ps :=
  h.sublist (List.sublist_cons_self ..)

theorem PiecesIn.head {p : Piece} {ps : List Piece} (h : PiecesIn o line (p :: ps)) : o.Holds p.span :=
  (h.sound p List.mem_cons_self).holds

theorem PiecesIn.values {ps : List Piece} {vs : List Value} (h : PiecesIn o line ps)
    (hsub : (vs.map Piece.value).Sublist ps) : ValuesIn o line vs := by
  have hvs := h.sublist hsub
  refine ⟨?_, ?_⟩
  · have hnests := hvs.nests
    rw [List.map_map] at hnests
    exact hnests
  · intro v hv
    exact hvs.sound (.value v) (List.mem_map_of_mem hv)

namespace Statement

theorem sound_iff {s : Statement} : s.Sound o ↔ s.Placed o ∧ ∀ t ∈ s.body, t.Sound o := by
  unfold Sound
  rw [tree_eq, List.forall_mem_cons, treeAll_eq, List.forall_mem_flatMap]

theorem Sound.holds {s : Statement} (h : s.Sound o) : o.Holds s.span := (sound_iff.1 h).1.holds

theorem narrow_of_none {s : Statement} (h : s.amounts = []) : ∀ n ∈ s.amounts, n.IsNarrow := by simp [h]

/-- A statement without a body is sound when its values and its numbers are. -/
theorem sound_of_values {s : Statement} (hbody : s.body = []) (hs : o.Holds s.span)
    (h : ValuesIn o s.span s.values) (hnarrow : ∀ n ∈ s.amounts, n.IsNarrow) : s.Sound o := by
  rw [sound_iff, hbody]
  refine ⟨⟨hs, ?_, h.sound, hnarrow⟩, nofun⟩
  rw [hbody, List.map_nil, List.append_nil]
  exact h.nests

theorem sound_shorthand (key : String) {v : Value} (h : v.Sound o) : (shorthand key v).Sound o := by
  refine sound_of_values rfl h.holds ⟨Span.nests_self _, ?_⟩ (narrow_of_none rfl)
  intro w hw
  rw [List.mem_singleton.1 hw]
  exact h

/-- A block of plain fields is sound when its labels and the values of the fields stand in order. -/
theorem sound_shortBlock (name : String) (labels : List Value) (fields : List (String × Value))
    (hline : o.Holds line) (h : ValuesIn o line (labels ++ fields.map (·.2))) :
    (block name false labels (fields.map fun (key, v) => shorthand key v) line).Sound o := by
  have hspans : (fields.map fun (key, v) => shorthand key v).map Statement.span =
    (fields.map (·.2)).map Value.span := by
    simp [shorthand, span]
  rw [sound_iff]
  refine ⟨⟨hline, ?_, ?_, narrow_of_none rfl⟩, ?_⟩
  · show line.Nests (labels.map Value.span ++ (fields.map fun (key, v) => shorthand key v).map
      Statement.span)
    rw [hspans, ← List.map_append]
    exact h.nests
  · intro v hv
    exact h.sound v (List.mem_append_left _ hv)
  · intro t ht
    obtain ⟨⟨key, v⟩, hfield, rfl⟩ := List.mem_map.1 ht
    exact sound_shorthand key (h.sound v (List.mem_append_right _ (List.mem_map_of_mem hfield)))

theorem asArray_span (v : Value) : (asArray v).span = v.span := by cases v <;> rfl

theorem sound_asArray {v : Value} (h : v.Sound o) : (asArray v).Sound o := by
  have hwrapped : (Value.array [v] v.span).Sound o := by
    rw [Value.sound_iff]
    refine ⟨⟨h.holds, Span.nests_self _, by simp [Value.number?]⟩, ?_⟩
    intro w hw
    rw [List.mem_singleton.1 hw]
    exact h
  cases v with
  | array items s => exact h
  | _ => exact hwrapped

end Statement

end

/-! ## Shapes -/

/-- A good result, or an error at a place of the text that is not for want of steps. -/
def Shaped {α : Type} (o : Cursor) (Q : α → Prop) (r : Except SyntaxError α) : Prop :=
  (∀ a, r = .ok a → Q a) ∧ ∀ e, r = .error e → e.cause ≠ .exhausted ∧ o.Holds e.span

section
variable {α β : Type} {o : Cursor} {P : α → Prop} {Q : β → Prop}

theorem shaped_ok {a : α} (h : P a) : Shaped o P (.ok a) := by
  refine ⟨?_, nofun⟩
  intro b heq
  cases heq
  exact h

theorem shaped_error {cause : SyntaxError.Cause} {s : Span} (hcause : cause ≠ .exhausted)
    (hs : o.Holds s) : Shaped o P (.error ⟨cause, s⟩) := by
  refine ⟨nofun, ?_⟩
  intro e heq
  cases heq
  exact ⟨hcause, hs⟩

theorem Shaped.bind {r : Except SyntaxError α} {k : α → Except SyntaxError β} (h : Shaped o P r)
    (hk : ∀ a, P a → Shaped o Q (k a)) : Shaped o Q (r >>= k) := by
  cases r with
  | error e =>
    obtain ⟨hcause, hspan⟩ := h.2 e rfl
    exact shaped_error hcause hspan
  | ok a => exact hk a (h.1 a rfl)

theorem Shaped.proceeds {c : Cursor} {R : β → Cursor → Prop} {r : Except SyntaxError α}
    {k : α → Except SyntaxError (β × Cursor)} (h : Shaped o P r)
    (hk : ∀ a, P a → Proceeds o c R (k a)) : Proceeds o c R (r >>= k) := by
  cases r with
  | error e =>
    obtain ⟨hcause, hspan⟩ := h.2 e rfl
    exact proceeds_error hcause hspan
  | ok a => exact hk a (h.1 a rfl)

end

section
variable {o : Cursor} {line : Span} {ps : List Piece}

namespace Piece

theorem shaped_valuesOr (cause : String → SyntaxError.Cause)
    (hcause : ∀ operator, cause operator ≠ .exhausted) (h : PiecesIn o line ps) :
    Shaped o (fun vs => vs.map value = ps) (valuesOr cause ps) := by
  induction ps with
  | nil => exact shaped_ok rfl
  | cons p ps ih =>
    cases p with
    | value v =>
      refine (ih h.tail).bind ?_
      intro vs hvs
      exact shaped_ok (by rw [List.map_cons, hvs])
    | op operator s => exact shaped_error (hcause _) h.head

theorem shaped_values (h : PiecesIn o line ps) : Shaped o (fun vs => vs.map value = ps) (values ps) :=
  shaped_valuesOr _ (fun _ => nofun) h

theorem shaped_numberAfter (operator : String) (h : PiecesIn o line ps) :
    Shaped o Number.IsNarrow (numberAfter operator line ps.head?) := by
  cases ps with
  | nil => exact shaped_error (by simp) h.place
  | cons p ps =>
    have herror : Shaped o Number.IsNarrow (.error ⟨.expectedNumberAfter operator, p.span⟩) :=
      shaped_error (by simp) h.head
    cases p with
    | op operator s => exact herror
    | value v =>
      cases v with
      | num n s => exact shaped_ok ((Value.sound_iff.1 (h.sound _ List.mem_cons_self)).1.narrow n rfl)
      | _ => exact herror

/-- The values before and after the arrow stand among the pieces; there are
none before an arrow already seen. -/
def Splits (seen : Bool) (ps : List Piece) (parts : List Value × List Value) : Prop :=
  ((parts.1 ++ parts.2).map value).Sublist ps ∧ (seen = true → parts.1 = [])

theorem shaped_splitAtArrow (seen : Bool) (h : PiecesIn o line ps) :
    Shaped o (Splits seen ps) (splitAtArrow seen ps) := by
  induction ps generalizing seen with
  | nil => exact shaped_ok ⟨.slnil, fun _ => rfl⟩
  | cons p ps ih =>
    cases p with
    | value v =>
      refine (ih seen h.tail).bind ?_
      intro (before, after) ⟨hsub, hseen⟩
      cases seen with
      | false => exact shaped_ok ⟨hsub.cons_cons _, nofun⟩
      | true =>
        obtain rfl : before = [] := hseen rfl
        exact shaped_ok ⟨hsub.cons_cons _, fun _ => rfl⟩
    | op operator s =>
      have herror :
        Shaped o (Splits seen (.op operator s :: ps)) (.error ⟨.unexpectedOperator operator.text, s⟩) :=
        shaped_error (by simp) h.head
      cases operator with
      | arrow =>
        cases seen with
        | true => exact shaped_error (by simp) h.head
        | false =>
          have hrest := ih true h.tail
          refine ⟨?_, hrest.2⟩
          intro parts heq
          exact ⟨(hrest.1 parts heq).1.cons _, nofun⟩
      | _ => exact herror

end Piece

namespace Statement

def Fills (o : Cursor) (line : Span) (s : Statement) : Prop := s.span = line ∧ s.Sound o

theorem fills_of_values {s : Statement} (hspan : s.span = line) (hbody : s.body = [])
    (hline : o.Holds line) (h : ValuesIn o line s.values) (hnarrow : ∀ n ∈ s.amounts, n.IsNarrow) :
    s.Fills o line := by
  subst hspan
  exact ⟨rfl, sound_of_values hbody hline h hnarrow⟩

theorem shaped_ofItems (key : Option String) {items : List Value} {keySpan : Span}
    (hkey : o.Holds keySpan) (hline : o.Holds line) (h : ValuesIn o line items) :
    Shaped o (Fills o line) (ofItems key items keySpan line) := by
  have hwithin : ∀ vs, ValuesIn o line vs → Shaped o (Fills o line) (.ok (.within key vs line)) := by
    intro vs hvs
    exact shaped_ok (fills_of_values rfl rfl hline hvs (narrow_of_none rfl))
  rcases items with _ | ⟨v, _ | ⟨w, rest⟩⟩
  · exact shaped_error (by simp) hkey
  · cases v with
    | array inner s =>
      have harray := h.sound _ List.mem_cons_self
      have hinner : ValuesIn o s inner := harray.parts
      exact hwithin inner ⟨hinner.nests.within (h.nests.inside s List.mem_cons_self), hinner.sound⟩
    | _ => exact hwithin _ h
  · cases v <;> exact hwithin _ h

theorem shaped_ofMutate {args : List Piece} (h : PiecesIn o line args) :
    Shaped o (Fills o line) (ofMutate args line) := by
  rcases args with _ | ⟨target | ⟨operator, s⟩, args⟩
  · exact shaped_error (by simp) h.place
  · cases target with
    | name target s =>
      rcases args with _ | ⟨id | ⟨operator, t⟩, args⟩
      · exact shaped_error (by simp) h.place
      · rcases args with _ | ⟨v | ⟨operator, t⟩, args⟩
        · exact shaped_error (by simp) h.place
        · exact shaped_error (by simp) h.tail.tail.head
        · cases operator with
          | change change =>
            simp only [ofMutate, ok_bind]
            refine (Piece.shaped_numberAfter change.text h.tail.tail.tail).bind ?_
            intro amount hamount
            have hrest := h.tail.tail.tail.sublist (args.drop_sublist 1)
            generalize args.drop 1 = rest at hrest ⊢
            cases rest with
            | nil =>
              have hid : ValuesIn o line [id] := h.values (by simp)
              exact shaped_ok (fills_of_values rfl rfl h.place hid (by simpa [amounts] using hamount))
            | cons extra rest => exact shaped_error (by simp) hrest.head
          | _ => exact shaped_error (by simp) h.tail.tail.head
      · exact shaped_error (by simp) h.place
    | _ => exact shaped_error (by simp) h.head
  · exact shaped_error (by simp) h.head

theorem shaped_ofOrigin {args : List Piece} (h : PiecesIn o line args) :
    Shaped o (Fills o line) (ofOrigin args line) := by
  refine (Piece.shaped_values h).bind ?_
  intro values hvalues
  have hin : ValuesIn o line values := h.values (hvalues ▸ .refl _)
  rcases values with _ | ⟨source, _ | ⟨via, rest⟩⟩
  · exact shaped_error (by simp) h.place
  · exact shaped_ok (fills_of_values rfl rfl h.place hin (narrow_of_none rfl))
  · dsimp only
    split
    · rcases rest with _ | ⟨kind, _ | ⟨direction, _ | ⟨extra, rest⟩⟩⟩
      · exact shaped_error (by simp) h.place
      · exact shaped_error (by simp) h.place
      · have hparts : ValuesIn o line [source, kind, direction] := hin.sublist (by simp)
        exact shaped_ok (fills_of_values rfl rfl h.place hparts (narrow_of_none rfl))
      · exact shaped_error (by simp) (hin.sound extra (by simp)).holds
    · exact shaped_error (by simp) (hin.sound via (by simp)).holds

theorem shaped_ofRel (key : String) {args : List Piece} (h : PiecesIn o line args) :
    Shaped o (Fills o line) (ofRel key args line) := by
  have hparts : (args.span fun p => !p.isArrow).1 ++ (args.span fun p => !p.isArrow).2 = args := by
    rw [List.span_eq_takeWhile_dropWhile, List.takeWhile_append_dropWhile]
  unfold ofRel
  generalize args.span (fun p => !p.isArrow) = parts at hparts ⊢
  obtain ⟨before, fromArrow⟩ := parts
  dsimp only at hparts ⊢
  subst hparts
  have hdrop := fromArrow.drop_sublist 1
  generalize fromArrow.drop 1 = after at hdrop ⊢
  refine (Piece.shaped_values (h.sublist (before.sublist_append_left fromArrow))).bind ?_
  intro front hfront
  have hafter := Piece.shaped_values (h.sublist (hdrop.trans (before.sublist_append_right fromArrow)))
  -- the values in front of the arrow and those behind it stand in the line together
  have hrel : ∀ (label : Option Value) (kind source target : Value) (values : List Value),
      front = label.toList ++ [kind, source] → (target :: values).map .value = after →
      (rel key label kind source target values line).Fills o line := by
    intro label kind source target values hlabel hback
    have hall : ValuesIn o line (front ++ target :: values) := by
      refine h.values ?_
      rw [List.map_append, hfront, hback]
      exact hdrop.append_left before
    refine fills_of_values rfl rfl h.place ?_ (narrow_of_none rfl)
    simpa [Statement.values, hlabel] using hall
  rcases front with _ | ⟨a, _ | ⟨b, _ | ⟨c, _ | ⟨d, rest⟩⟩⟩⟩
  · exact shaped_error (by simp) h.place
  · exact shaped_error (by simp) h.place
  · refine hafter.bind ?_
    intro back hback
    cases back with
    | nil => exact shaped_error (by simp) h.place
    | cons target values => exact shaped_ok (hrel none a b target values rfl hback)
  · refine hafter.bind ?_
    intro back hback
    cases back with
    | nil => exact shaped_error (by simp) h.place
    | cons target values => exact shaped_ok (hrel (some a) b c target values rfl hback)
  · exact shaped_error (by simp) h.place

/-- The arguments taken so far stand in front of the pieces to come. -/
theorem shaped_ofPredicate (word : String) (args : List Value)
    (h : PiecesIn o line (args.map .value ++ ps)) :
    Shaped o (Fills o line) (ofPredicate word line args ps) := by
  induction ps generalizing args with
  | nil => exact shaped_error (by simp) h.place
  | cons p ps ih =>
    have hps : PiecesIn o line (p :: ps) := h.sublist (List.sublist_append_right ..)
    have hargs : ValuesIn o line args := h.values (List.sublist_append_left ..)
    cases p with
    | value v =>
      -- A value is put behind the arguments and the line read on: the pieces stay the same, and so
      -- does their order.
      refine ih (args ++ [v]) ?_
      rw [List.map_append, List.append_assoc]
      exact h
    | op operator s =>
      have herror : Shaped o (Fills o line) (.error ⟨.unexpectedOperator operator.text, s⟩) :=
        shaped_error (by simp) hps.head
      cases operator with
      | compare comparator =>
        refine (Piece.shaped_numberAfter comparator.text hps.tail).bind ?_
        intro number hnumber
        have hrest := hps.tail.sublist (ps.drop_sublist 1)
        generalize ps.drop 1 = rest at hrest ⊢
        rcases rest with _ | ⟨extra, more⟩
        · exact shaped_ok (fills_of_values rfl rfl h.place hargs (by simpa [amounts] using hnumber))
        · have hextra : Shaped o (Fills o line) (.error ⟨.inputAfterComparison, extra.span⟩) :=
            shaped_error (by simp) hrest.head
          rcases extra with v | ⟨operator, t⟩
          · exact hextra
          · cases operator with
            | comma =>
              refine (Piece.shaped_numberAfter "," hrest.tail).bind ?_
              intro upper hupper
              have hmore := hrest.tail.sublist (more.drop_sublist 1)
              generalize more.drop 1 = last at hmore ⊢
              cases last with
              | nil =>
                exact shaped_ok
                  (fills_of_values rfl rfl h.place hargs (by simpa [amounts] using ⟨hnumber, hupper⟩))
              | cons extra last => exact shaped_error (by simp) hmore.head
            | _ => exact hextra
      | _ => exact herror

theorem shaped_ofAxisLine {args : List Piece} (h : PiecesIn o line args) :
    Shaped o (Fills o line) (ofAxisLine args line) := by
  refine (Piece.shaped_splitAtArrow false h).bind ?_
  intro (before, after) ⟨hsub, _⟩
  have hin := h.values hsub
  have hblock : ∀ (id : Value) (fields : List (String × Value)), before ++ after = id ::
    fields.map (·.2) →
      (block "axis" false [id] (fields.map fun (key, v) => shorthand key v) line).Fills o line := by
    intro id fields hfields
    rw [hfields] at hin
    exact ⟨rfl, sound_shortBlock "axis" [id] fields h.place hin⟩
  rcases before with _ | ⟨id, _ | ⟨b, _ | ⟨c, _ | ⟨d, rest⟩⟩⟩⟩
  · exact shaped_error (by simp) h.place
  · exact shaped_error (by simp) h.place
  · rcases after with _ | ⟨high, _ | ⟨description, _ | ⟨d, rest⟩⟩⟩
    · exact shaped_error (by simp) h.place
    · exact shaped_ok (hblock id [("lowTag", b), ("highTag", high)] rfl)
    · exact shaped_ok (hblock id [("lowTag", b), ("highTag", high), ("description", description)] rfl)
    · exact shaped_error (by simp) h.place
  · rcases after with _ | ⟨high, _ | ⟨description, _ | ⟨d, rest⟩⟩⟩
    · exact shaped_error (by simp) h.place
    · exact shaped_ok (hblock id [("name", b), ("lowTag", c), ("highTag", high)] rfl)
    · exact shaped_ok
        (hblock id [("name", b), ("lowTag", c), ("highTag", high), ("description", description)] rfl)
    · exact shaped_error (by simp) h.place
  · exact shaped_error (by simp) h.place

theorem shaped_ofRelationshipKindLine {args : List Piece} (h : PiecesIn o line args) :
    Shaped o (Fills o line) (ofRelationshipKindLine args line) := by
  refine (Piece.shaped_splitAtArrow false h).bind ?_
  intro (before, after) ⟨hsub, _⟩
  have hin := h.values hsub
  -- an array that stands for one value has its span
  have hblock : ∀ (kind source target : Value) (description : List Value),
      before ++ after = kind :: source :: target :: description →
      (block "relationship_kind" false [kind]
        ((("srcKinds", asArray source) :: ("dstKinds", asArray target) ::
        description.map fun d => ("description", d)).map fun (key, v) => shorthand key v) line).Fills o
        line := by
    intro kind source target description heq
    rw [heq] at hin
    refine ⟨rfl, sound_shortBlock "relationship_kind" [kind] _ h.place ⟨?_, ?_⟩⟩
    · simpa [asArray_span, Function.comp_def] using hin.nests
    · simpa [Function.comp_def] using
        ⟨hin.sound kind (by simp), sound_asArray (hin.sound source (by simp)),
          sound_asArray (hin.sound target (by simp)), fun d hd => hin.sound d (by simp [hd])⟩
  rcases before with _ | ⟨kind, _ | ⟨source, _ | ⟨c, rest⟩⟩⟩
  · exact shaped_error (by simp) h.place
  · exact shaped_error (by simp) h.place
  · rcases after with _ | ⟨target, _ | ⟨description, _ | ⟨c, rest⟩⟩⟩
    · exact shaped_error (by simp) h.place
    · exact shaped_ok (hblock kind source target [] rfl)
    · exact shaped_ok (hblock kind source target [description] rfl)
    · exact shaped_error (by simp) h.place
  · exact shaped_error (by simp) h.place

theorem shaped_ofKeyed (key : String) (quoted : Bool) {keyValue : Value} {args : List Piece}
    (h : PiecesIn o line (.value keyValue :: args)) :
    Shaped o (Fills o line) (ofKeyed key quoted keyValue args line) := by
  cases args with
  | nil =>
    have hkey : ValuesIn o line [keyValue] := h.values (.refl _)
    exact shaped_ok (fills_of_values rfl rfl h.place hkey (narrow_of_none rfl))
  | cons first more =>
    refine iteInduction (motive := Shaped o (Fills o line)) ?_ ?_
    · intro _
      refine (Piece.shaped_values h.tail.tail).bind ?_
      intro items hitems
      exact shaped_ofItems (some key) h.head h.place (h.tail.tail.values (hitems ▸ .refl _))
    intro _
    split
    · exact shaped_ofPredicate key [] h.tail
    · refine (Piece.shaped_values h.tail).bind ?_
      intro values hargs
      have hin : ValuesIn o line values := h.tail.values (hargs ▸ .refl _)
      cases hlast : values.getLast? with
      | none => exact shaped_error (by simp) h.place
      | some value =>
        refine shaped_ok (fills_of_values rfl rfl h.place ?_ (narrow_of_none rfl))
        have heq := List.dropLast_append_getLast? value hlast
        show ValuesIn o line (values.dropLast ++ [value])
        rw [heq]
        exact hin

theorem shaped_ofLine (h : PiecesIn o line ps) : Shaped o (Fills o line) (ofLine ps line) := by
  rcases ps with _ | ⟨v | ⟨operator, s⟩, args⟩
  · exact shaped_error (by simp) h.place
  · have hbare : args = [] → Shaped o (Fills o line) (.ok (.bare v line)) := by
      intro hargs
      subst hargs
      exact shaped_ok (fills_of_values rfl rfl h.place (h.values (.refl _)) (narrow_of_none rfl))
    have herror : Shaped o (Fills o line) (.error ⟨.expectedKeyword, v.span⟩) :=
      shaped_error (by simp) h.head
    cases v with
    | name key s =>
      simp only [ofLine]
      split
      · exact shaped_ofMutate h.tail
      split
      · exact shaped_ofOrigin h.tail
      split
      · refine (Piece.shaped_values h.tail).bind ?_
        intro items hitems
        exact shaped_ofItems none h.head h.place (h.tail.values (hitems ▸ .refl _))
      split
      · exact shaped_ofRel key h.tail
      split
      · exact shaped_ofAxisLine h.tail
      split
      · exact shaped_ofRelationshipKindLine h.tail
      · exact shaped_ofKeyed key false h
    | str key s =>
      cases args with
      | nil => exact hbare rfl
      | cons first more => exact shaped_ofKeyed key true h
    | _ =>
      cases args with
      | nil => exact hbare rfl
      | cons first more => exact herror
  · exact shaped_error (by simp) h.head

theorem shaped_blockHeader {header : Span} (h : PiecesIn o line ps) (hheader : o.Holds header) :
    Shaped o (fun found => ValuesIn o line found.2.2) (blockHeader ps header) := by
  have hlabels : ∀ (name : String) (quoted : Bool) (p : Piece) (rest : List Piece),
    PiecesIn o line (p :: rest) →
      Shaped o (fun found => ValuesIn o line found.2.2)
        (Piece.valuesOr .operatorInBlockHeader rest >>= fun labels => pure (name, quoted, labels)) := by
    intro name quoted p rest hrest
    refine (Piece.shaped_valuesOr .operatorInBlockHeader (by simp) hrest.tail).bind ?_
    intro labels heq
    exact shaped_ok (hrest.tail.values (heq ▸ .refl _))
  rcases ps with _ | ⟨v | ⟨operator, s⟩, rest⟩
  · exact shaped_error (by simp) hheader
  · cases v with
    | name name s =>
      simp only [blockHeader]
      split
      · exact shaped_error (by simp) h.head
      · exact hlabels name false _ rest h
    | str name s => exact hlabels name true _ rest h
    | _ => exact shaped_error (by simp) h.head
  · exact shaped_error (by simp) h.head

end Statement

end

end Worldbook
