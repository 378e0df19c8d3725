import Worldbook.Proofs.Continuation
import Worldbook.Source.Parser

/-!
# Reading one text after another

Values, lines and statements that stand in a text are read the same where the text is moved. A text
of statements is therefore read up to its end when lines follow it, and the reading goes on with
those: two texts with a line end between them hold the statements of both.
-/

namespace Worldbook

/-! ## Values -/

namespace Cursor

theorem skipBlanks_of_rest_nil {c : Cursor} (h : c.rest = []) : c.skipBlanks = c := by
  rw [skipBlanks, h, trivia, past_nil]

theorem sequence_of_rest_nil {c : Cursor} (h : c.rest = []) (n : Nat) (opening closing : Char)
    (start : Cursor) : ∃ e, sequence n opening closing start c = .error e := by
  cases n with
  | zero => exact ⟨_, rfl⟩
  | succ n => simp [sequence, skipBlanks_of_rest_nil h, h, failTo]

theorem members_of_rest_nil {c : Cursor} (h : c.rest = []) (n : Nat) (start : Cursor) :
    ∃ e, members n start c = .error e := by
  cases n with
  | zero => exact ⟨_, rfl⟩
  | succ n => simp [members, skipBlanks_of_rest_nil h, h, failTo]

theorem value_of_rest_nil {c : Cursor} (h : c.rest = []) (n : Nat) : ∃ e, value n c = .error e := by
  cases n with
  | zero => exact ⟨_, rfl⟩
  | succ n => simp [value, h, fail]

end Cursor

namespace Move

variable (M : Move)

/-- The three readers of values, with `n` rounds on the text and `m` on the moved one. -/
structure CarriesValues (n m : Nat) : Prop where
  value : ∀ c, Carries M (·.relocate M.span) c (c.value n) ((M.cursor c).value m)
  sequence : ∀ opening closing start c, Carries M (Value.relocateAll M.span) c
    (Cursor.sequence n opening closing start c)
    (Cursor.sequence m opening closing (M.cursor start) (M.cursor c))
  members : ∀ start c, Carries M (Value.relocateMembers M.span) c (Cursor.members n start c)
    (Cursor.members m (M.cursor start) (M.cursor c))

variable {M} {n m : Nat}

theorem CarriesValues.value_succ (h : M.CarriesValues n m) (c : Cursor) :
    Carries M (·.relocate M.span) c (c.value (n + 1)) ((M.cursor c).value (m + 1)) := by
  rw [Cursor.value, Cursor.value, cursor_rest]
  rcases hc : c.rest with _ | ⟨first, rest⟩
  · exact carries_error
  have hfirst : [first] <+: c.rest := ⟨rest, hc.symm⟩
  by_cases hquote : first = '"'
  · subst hquote
    refine Carries.bind (M.carries_scanAnyString (by rw [hc]; rfl)) ?_
    exact fun text d _ => carries_ok rfl rfl (.refl d)
  by_cases hbracket : first = '['
  · subst hbracket
    simp only [List.cons_append, ← M.cursor_past hfirst]
    refine Carries.bind ((h.sequence '[' ']' c _).since (Cursor.reaches_past hfirst)) ?_
    exact fun items d _ => carries_ok rfl rfl (.refl d)
  by_cases hbrace : first = '\x7b'
  · subst hbrace
    simp only [List.cons_append, ← M.cursor_past hfirst]
    refine Carries.bind ((h.members c _).since (Cursor.reaches_past hfirst)) ?_
    exact fun entries d _ => carries_ok rfl rfl (.refl d)
  simp only [List.cons_append]
  split
  · refine Carries.bind (M.carries_scanNumber c) ?_
    exact fun number d _ => carries_ok rfl rfl (.refl d)
  split
  · refine Carries.bind (M.carries_scanName c) ?_
    intro name d _
    rw [M.startsWith_cursor d (by decide)]
    simp only [id_eq]
    split
    · exact carries_ok rfl rfl (.refl d)
    split
    · exact carries_ok rfl rfl (.refl d)
    split
    · exact carries_ok rfl rfl (.refl d)
    split
    · next hparen =>
      have hopen : ['('] <+: d.rest := List.isPrefixOf_iff_prefix.1 hparen
      rw [← M.cursor_past hopen]
      refine Carries.bind ((h.sequence '(' ')' c _).since (Cursor.reaches_past hopen)) ?_
      exact fun args e _ => carries_ok rfl rfl (.refl e)
    · exact carries_ok rfl rfl (.refl d)
  · exact carries_error

/-- Past blanks, a reader that fails where nothing follows them. -/
theorem carries_skipBlanks {α β : Type} {f : α → β} {c : Cursor}
    (k : Cursor → Except SyntaxError (α × Cursor)) (k' : Cursor → Except SyntaxError (β × Cursor))
    (hstuck : ∀ d, d.rest = [] → ∃ e, k d = .error e)
    (h : Carries M f c.skipBlanks (k c.skipBlanks) (k' (M.cursor c.skipBlanks))) :
    Carries M f c (k c.skipBlanks) (k' (M.cursor c).skipBlanks) := by
  by_cases hend : c.skipBlanks.rest = []
  · obtain ⟨e, he⟩ := hstuck _ hend
    rw [he]
    exact carries_error
  · rw [M.skipBlanks_cursor hend]
    exact h.since c.reaches_skipBlanks

theorem CarriesValues.sequence_succ (h : M.CarriesValues n m) (opening closing : Char)
    (start c : Cursor) :
    Carries M (Value.relocateAll M.span) c (Cursor.sequence (n + 1) opening closing start c)
      (Cursor.sequence (m + 1) opening closing (M.cursor start) (M.cursor c)) := by
  simp only [Cursor.sequence]
  -- Where the text ends the reader fails, and nothing is claimed of the moved one, which has more
  -- to read.
  by_cases hend : c.skipBlanks.rest = []
  · simp only [hend]
    exact carries_error
  rw [M.skipBlanks_cursor hend, cursor_rest]
  refine Carries.since ?_ c.reaches_skipBlanks
  generalize c.skipBlanks = d
  rcases hd : d.rest with _ | ⟨first, rest⟩
  · exact carries_error
  simp only [List.cons_append]
  split
  · have hfirst : [first] <+: d.rest := ⟨rest, hd.symm⟩
    rw [← M.cursor_past hfirst]
    exact carries_ok rfl rfl (Cursor.reaches_past hfirst)
  · refine Carries.bind (h.value d) ?_
    intro item e _
    refine Carries.bind (f := Value.relocateAll M.span) ?_ fun items rest _ =>
      carries_ok rfl rfl (.refl rest)
    refine carries_skipBlanks (fun d => Cursor.sequence n opening closing start (d.eat ','))
      (fun d => Cursor.sequence m opening closing (M.cursor start) (d.eat ',')) ?_ ?_
    · intro d hd
      exact Cursor.sequence_of_rest_nil ((d.reaches_eat ',').rest_eq_nil hd) ..
    · rw [← M.cursor_eat _ (by decide)]
      exact Carries.since (h.sequence _ _ _ _) (Cursor.reaches_eat ..)

theorem CarriesValues.members_succ (h : M.CarriesValues n m) (start c : Cursor) :
    Carries M (Value.relocateMembers M.span) c (Cursor.members (n + 1) start c)
      (Cursor.members (m + 1) (M.cursor start) (M.cursor c)) := by
  simp only [Cursor.members]
  by_cases hend : c.skipBlanks.rest = []
  · simp only [hend]
    exact carries_error
  rw [M.skipBlanks_cursor hend, cursor_rest]
  refine Carries.since ?_ c.reaches_skipBlanks
  generalize c.skipBlanks = d
  rcases hd : d.rest with _ | ⟨first, rest⟩
  · exact carries_error
  by_cases hbrace : first = '\x7d'
  · subst hbrace
    have hfirst : ['\x7d'] <+: d.rest := ⟨rest, hd.symm⟩
    simp only [List.cons_append, ← M.cursor_past hfirst]
    exact carries_ok rfl rfl (Cursor.reaches_past hfirst)
  simp only [List.cons_append]
  refine Carries.bind (M.carries_scanKey d) ?_
  intro key e _
  by_cases hend : e.skipBlanks.rest = []
  · rw [if_neg (by simp [Cursor.startsWith, hend])]
    exact carries_error
  simp only [M.skipBlanks_cursor hend, M.startsWith_cursor _ (show '\n' ∉ [':'] by decide), id_eq]
  refine Carries.since ?_ e.reaches_skipBlanks
  generalize e.skipBlanks = e'
  split
  · next hcolon =>
    have hpast : [':'] <+: e'.rest := List.isPrefixOf_iff_prefix.1 hcolon
    rw [← M.cursor_past hpast]
    refine Carries.bind (f := (·.relocate M.span)) ?_ ?_
    · refine Carries.since ?_ (Cursor.reaches_past hpast)
      exact carries_skipBlanks (·.value n) (·.value m) (fun d hd =>
        Cursor.value_of_rest_nil hd n) (h.value _)
    · intro item rest _
      refine Carries.bind (f := Value.relocateMembers M.span) ?_ fun entries rest _ =>
        carries_ok rfl rfl (.refl rest)
      refine carries_skipBlanks (fun d => Cursor.members n start (d.eat ','))
        (fun d => Cursor.members m (M.cursor start) (d.eat ',')) ?_ ?_
      · intro d hd
        exact Cursor.members_of_rest_nil ((d.reaches_eat ',').rest_eq_nil hd) ..
      · rw [← M.cursor_eat _ (by decide)]
        exact Carries.since (h.members _ _) (Cursor.reaches_eat ..)
  · exact carries_error

theorem carriesValues (M : Move) {n m : Nat} (h : n ≤ m) : M.CarriesValues n m := by
  induction n generalizing m with
  | zero => exact ⟨fun _ => carries_error, fun _ _ _ _ => carries_error, fun _ _ => carries_error⟩
  | succ n ih =>
    obtain ⟨m, rfl⟩ : ∃ k, m = k + 1 := ⟨m - 1, by omega⟩
    have hn := ih (Nat.le_of_succ_le_succ h)
    exact ⟨hn.value_succ, hn.sequence_succ, hn.members_succ⟩

theorem carries_scanValue (M : Move) (c : Cursor) :
    Carries M (·.relocate M.span) c c.scanValue (M.cursor c).scanValue := by
  refine (M.carriesValues ?_).value c
  rw [cursor_rest, List.length_append]
  omega

end Move

/-! ## The shape of a line -/

def Keeps {α β : Type} (f : α → β) (r : Except SyntaxError α) (r' : Except SyntaxError β) : Prop :=
  ∀ a, r = .ok a → r' = .ok (f a)

section
variable {α β γ δ : Type} {f : α → β} {g : γ → δ}

theorem keeps_ok {a : α} {b : β} (h : b = f a) : Keeps f (.ok a) (.ok b) := by
  rintro _ ⟨⟩
  rw [h]

theorem keeps_error {e : SyntaxError} {r' : Except SyntaxError β} : Keeps f (.error e) r' := nofun

theorem ok_bind (a : α) (k : α → Except SyntaxError γ) : (Except.ok a >>= k) = k a := rfl

theorem Keeps.bind {r : Except SyntaxError α} {r' : Except SyntaxError β} {k : α → Except SyntaxError γ}
    {k' : β → Except SyntaxError δ} (hr : Keeps f r r') (hk : ∀ a, Keeps g (k a) (k' (f a))) :
    Keeps g (r >>= k) (r' >>= k') := by
  intro b hb
  cases r with
  | error e => cases hb
  | ok a =>
    rw [hr a rfl]
    exact hk a b hb

end

def Piece.relocate (g : Span → Span) : Piece → Piece
  | .value v => .value (v.relocate g)
  | .op o s => .op o (g s)

namespace Piece

variable (g : Span → Span)

theorem relocate_value (v : Value) : (value v).relocate g = value (v.relocate g) := rfl

theorem relocate_op (o : Operator) (s : Span) : (op o s).relocate g = op o (g s) := rfl

@[simp] theorem isArrow_relocate (p : Piece) : (p.relocate g).isArrow = p.isArrow := by
  rcases p with v | ⟨_ | _ | _ | _, _⟩ <;> rfl

@[simp] theorem isComparator_relocate (p : Piece) : (p.relocate g).isComparator = p.isComparator := by
  rcases p with v | ⟨_ | _ | _ | _, _⟩ <;> rfl

theorem keeps_valuesOr (cause : String → SyntaxError.Cause) (ps : List Piece) :
    Keeps (List.map (·.relocate g)) (valuesOr cause ps) (valuesOr cause (ps.map (·.relocate g))) := by
  induction ps with
  | nil => exact keeps_ok rfl
  | cons p ps ih =>
    cases p with
    | value v => exact ih.bind fun vs => keeps_ok rfl
    | op o s => exact keeps_error

theorem keeps_numberAfter (operator : String) (line : Span) (p : Option Piece) :
    Keeps id (numberAfter operator line p) (numberAfter operator (g line) (p.map (·.relocate g))) := by
  cases p with
  | none => exact keeps_error
  | some p =>
    rcases p with v | ⟨o, s⟩
    · cases v with
      | num n s => exact keeps_ok rfl
      | _ => exact keeps_error
    · exact keeps_error

theorem keeps_splitAtArrow (seen : Bool) (ps : List Piece) :
    Keeps (Prod.map (List.map (·.relocate g)) (List.map (·.relocate g))) (splitAtArrow seen ps)
      (splitAtArrow seen (ps.map (·.relocate g))) := by
  induction ps generalizing seen with
  | nil => exact keeps_ok rfl
  | cons p ps ih =>
    rcases p with v | ⟨o, s⟩
    · refine (ih seen).bind fun (before, after) => keeps_ok ?_
      cases seen <;> rfl
    · cases o with
      | arrow =>
        cases seen with
        | true => exact keeps_error
        | false => exact ih true
      | _ => exact keeps_error

end Piece

namespace Statement

variable (g : Span → Span)

theorem keeps_ofItems (key : Option String) (items : List Value) (keySpan line : Span) :
    Keeps (·.relocate g) (ofItems key items keySpan line)
      (ofItems key (items.map (·.relocate g)) (g keySpan) (g line)) := by
  rcases items with _ | ⟨v, _ | ⟨w, items⟩⟩
  · exact keeps_error
  · cases v with
    | array inner s =>
      refine keeps_ok ?_
      rw [relocate, Value.relocateAll_eq_map]
    | _ => exact keeps_ok rfl
  · cases v <;> exact keeps_ok rfl

theorem keeps_ofMutate (args : List Piece) (line : Span) :
    Keeps (·.relocate g) (ofMutate args line) (ofMutate (args.map (·.relocate g)) (g line)) := by
  rcases args with _ | ⟨target | ⟨o, s⟩, args⟩
  · exact keeps_error
  · cases target with
    | name target s =>
      rcases args with _ | ⟨id | ⟨o, t⟩, args⟩
      · exact keeps_error
      · rcases args with _ | ⟨v | ⟨o, t⟩, args⟩
        · exact keeps_error
        · exact keeps_error
        · cases o with
          | change change =>
            simp only [ofMutate, ok_bind, List.map_cons, Piece.relocate_value, Value.relocate,
              Piece.relocate_op, List.head?_map, ← List.map_drop]
            refine (Piece.keeps_numberAfter g change.text line args.head?).bind fun amount => ?_
            cases args.drop 1 with
            | nil => exact keeps_ok rfl
            | cons extra rest => exact keeps_error
          | _ => exact keeps_error
      · exact keeps_error
    | _ => exact keeps_error
  · exact keeps_error

theorem keeps_ofOrigin (args : List Piece) (line : Span) :
    Keeps (·.relocate g) (ofOrigin args line) (ofOrigin (args.map (·.relocate g)) (g line)) := by
  refine (Piece.keeps_valuesOr g _ args).bind fun values => ?_
  rcases values with _ | ⟨source, _ | ⟨via, rest⟩⟩
  · exact keeps_error
  · exact keeps_ok rfl
  · simp only [List.map_cons, Value.isWord_relocate]
    split
    · rcases rest with _ | ⟨kind, _ | ⟨direction, _ | ⟨extra, rest⟩⟩⟩
      · exact keeps_error
      · exact keeps_error
      · exact keeps_ok rfl
      · exact keeps_error
    · exact keeps_error

theorem keeps_ofRel (key : String) (args : List Piece) (line : Span) :
    Keeps (·.relocate g) (ofRel key args line) (ofRel key (args.map (·.relocate g)) (g line)) := by
  have hspan : (args.map (·.relocate g)).span (fun p => !p.isArrow) =
      Prod.map (List.map (·.relocate g)) (List.map (·.relocate g)) (args.span fun p => !p.isArrow) := by
    rw [List.span_eq_takeWhile_dropWhile, List.span_eq_takeWhile_dropWhile, List.takeWhile_map,
      List.dropWhile_map]
    simp only [Function.comp_def, Piece.isArrow_relocate, Prod.map_apply]
  unfold ofRel
  rw [hspan]
  generalize args.span (fun p => !p.isArrow) = parts
  obtain ⟨before, fromArrow⟩ := parts
  simp only [Prod.map_apply, ← List.map_drop, Piece.values]
  refine (Piece.keeps_valuesOr g _ before).bind fun values => ?_
  rcases values with _ | ⟨a, _ | ⟨b, _ | ⟨c, _ | ⟨d, rest⟩⟩⟩⟩
  · exact keeps_error
  · exact keeps_error
  · refine (Piece.keeps_valuesOr g _ (fromArrow.drop 1)).bind fun values => ?_
    cases values with
    | nil => exact keeps_error
    | cons target rest => exact keeps_ok rfl
  · refine (Piece.keeps_valuesOr g _ (fromArrow.drop 1)).bind fun values => ?_
    cases values with
    | nil => exact keeps_error
    | cons target rest => exact keeps_ok rfl
  · exact keeps_error

theorem keeps_ofPredicate (word : String) (line : Span) (args : List Value) (ps : List Piece) :
    Keeps (·.relocate g) (ofPredicate word line args ps)
      (ofPredicate word (g line) (args.map (·.relocate g)) (ps.map (·.relocate g))) := by
  induction ps generalizing args with
  | nil => exact keeps_error
  | cons p ps ih =>
    rcases p with v | ⟨o, s⟩
    · have hargs := ih (args ++ [v])
      rw [List.map_append] at hargs
      exact hargs
    · cases o with
      | compare comparator =>
        simp only [List.map_cons, Piece.relocate_op, ofPredicate, List.head?_map, ← List.map_drop]
        refine (Piece.keeps_numberAfter g comparator.text line ps.head?).bind fun number => ?_
        rcases ps.drop 1 with _ | ⟨v | ⟨o, s⟩, more⟩
        · exact keeps_ok rfl
        · exact keeps_error
        · cases o with
          | comma =>
            simp only [List.map_cons, Piece.relocate_op, List.head?_map, ← List.map_drop]
            refine (Piece.keeps_numberAfter g "," line more.head?).bind fun upper => ?_
            cases more.drop 1 with
            | nil => exact keeps_ok rfl
            | cons extra rest => exact keeps_error
          | _ => exact keeps_error
      | _ => exact keeps_error

theorem shorthand_relocate (key : String) (v : Value) :
    (shorthand key v).relocate g = shorthand key (v.relocate g) := by
  rw [shorthand, relocate, shorthand, Value.span_relocate, List.map_nil]

theorem asArray_relocate (v : Value) : (asArray v).relocate g = asArray (v.relocate g) := by
  cases v <;> rfl

theorem keeps_ofAxisLine (args : List Piece) (line : Span) :
    Keeps (·.relocate g) (ofAxisLine args line) (ofAxisLine (args.map (·.relocate g)) (g line)) := by
  refine (Piece.keeps_splitAtArrow g false args).bind fun (before, after) => ?_
  rcases before with _ | ⟨id, _ | ⟨b, _ | ⟨c, _ | ⟨d, rest⟩⟩⟩⟩
  · exact keeps_error
  · exact keeps_error
  · rcases after with _ | ⟨high, _ | ⟨description, _ | ⟨d, rest⟩⟩⟩
    · exact keeps_error
    · refine keeps_ok ?_
      simp [relocate, relocateAll_eq_map, shorthand_relocate]
    · refine keeps_ok ?_
      simp [relocate, relocateAll_eq_map, shorthand_relocate]
    · exact keeps_error
  · rcases after with _ | ⟨high, _ | ⟨description, _ | ⟨d, rest⟩⟩⟩
    · exact keeps_error
    · refine keeps_ok ?_
      simp [relocate, relocateAll_eq_map, shorthand_relocate]
    · refine keeps_ok ?_
      simp [relocate, relocateAll_eq_map, shorthand_relocate]
    · exact keeps_error
  · exact keeps_error

theorem keeps_ofRelationshipKindLine (args : List Piece) (line : Span) :
    Keeps (·.relocate g) (ofRelationshipKindLine args line)
      (ofRelationshipKindLine (args.map (·.relocate g)) (g line)) := by
  refine (Piece.keeps_splitAtArrow g false args).bind fun (before, after) => ?_
  rcases before with _ | ⟨kind, _ | ⟨source, _ | ⟨c, rest⟩⟩⟩
  · exact keeps_error
  · exact keeps_error
  · rcases after with _ | ⟨target, _ | ⟨description, _ | ⟨c, rest⟩⟩⟩
    · exact keeps_error
    · refine keeps_ok ?_
      simp [relocate, relocateAll_eq_map, shorthand_relocate, asArray_relocate]
    · refine keeps_ok ?_
      simp [relocate, relocateAll_eq_map, shorthand_relocate, asArray_relocate]
    · exact keeps_error
  · exact keeps_error

theorem keeps_ofValues (key : String) (quoted : Bool) (args : List Piece) (line : Span) :
    Keeps (·.relocate g) (if args.any Piece.isComparator then ofPredicate key line [] args else do
        let values ← Piece.values args
        match values.getLast? with
        | some value => return .field key quoted values.dropLast value line
        | none => .error ⟨.expectedValue, line⟩)
      (if (args.map (·.relocate g)).any Piece.isComparator then
        ofPredicate key (g line) [] (args.map (·.relocate g)) else do
        let values ← Piece.values (args.map (·.relocate g))
        match values.getLast? with
        | some value => return .field key quoted values.dropLast value (g line)
        | none => .error ⟨.expectedValue, g line⟩) := by
  have hcompare : (args.map (·.relocate g)).any Piece.isComparator = args.any Piece.isComparator := by
    simp only [List.any_map, Function.comp_def, Piece.isComparator_relocate]
  rw [hcompare]
  split
  · exact keeps_ofPredicate g key line [] args
  · refine (Piece.keeps_valuesOr g .unexpectedOperator args).bind fun values => ?_
    rw [List.getLast?_map, ← List.map_dropLast]
    cases values.getLast? with
    | none => exact keeps_error
    | some value => exact keeps_ok rfl

theorem keeps_ofKeyed (key : String) (quoted : Bool) (keyValue : Value) (args : List Piece)
    (line : Span) : Keeps (·.relocate g) (ofKeyed key quoted keyValue args line)
      (ofKeyed key quoted (keyValue.relocate g) (args.map (·.relocate g)) (g line)) := by
  rcases args with _ | ⟨first | ⟨o, s⟩, more⟩
  · exact keeps_ok rfl
  · have hvalues := keeps_ofValues g key quoted (.value first :: more) line
    simp only [ofKeyed, List.map_cons, Piece.relocate_value, Value.isWord_relocate] at hvalues ⊢
    by_cases hin : first.isWord "in" = true
    · rw [if_pos hin, if_pos hin, Value.span_relocate]
      exact (Piece.keeps_valuesOr g .unexpectedOperator more).bind fun items =>
        keeps_ofItems g (some key) items keyValue.span line
    · rw [if_neg hin, if_neg hin]
      exact hvalues
  · exact keeps_ofValues g key quoted (.op o s :: more) line

theorem keeps_ofLine (ps : List Piece) (line : Span) :
    Keeps (·.relocate g) (ofLine ps line) (ofLine (ps.map (·.relocate g)) (g line)) := by
  rcases ps with _ | ⟨v | ⟨o, s⟩, args⟩
  · exact keeps_error
  · cases v with
    | name key s =>
      have harrow : (args.map (·.relocate g)).any Piece.isArrow = args.any Piece.isArrow := by
        simp only [List.any_map, Function.comp_def, Piece.isArrow_relocate]
      simp only [ofLine, List.map_cons, Piece.relocate_value, Value.relocate, harrow]
      split
      · exact keeps_ofMutate g args line
      split
      · exact keeps_ofOrigin g args line
      split
      · exact (Piece.keeps_valuesOr g .unexpectedOperator args).bind fun items =>
          keeps_ofItems g none items s line
      split
      · exact keeps_ofRel g key args line
      split
      · exact keeps_ofAxisLine g args line
      split
      · exact keeps_ofRelationshipKindLine g args line
      · exact keeps_ofKeyed g key false (.name key s) args line
    | str key s =>
      cases args with
      | nil => exact keeps_ok rfl
      | cons first more => exact keeps_ofKeyed g key true (.str key s) (first :: more) line
    | _ =>
      cases args with
      | nil => exact keeps_ok rfl
      | cons first more => exact keeps_error
  · cases args with
    | nil => exact keeps_error
    | cons first more => exact keeps_error

theorem keeps_blockHeader (ps : List Piece) (header : Span) :
    Keeps (fun h => (h.1, h.2.1, h.2.2.map (·.relocate g))) (blockHeader ps header)
      (blockHeader (ps.map (·.relocate g)) (g header)) := by
  rcases ps with _ | ⟨v | ⟨o, s⟩, rest⟩
  · exact keeps_error
  · cases v with
    | name name s =>
      simp only [blockHeader, List.map_cons, Piece.relocate_value, Value.relocate]
      split
      · exact keeps_error
      · exact (Piece.keeps_valuesOr g .operatorInBlockHeader rest).bind fun labels => keeps_ok rfl
    | str name s =>
      exact (Piece.keeps_valuesOr g .operatorInBlockHeader rest).bind fun labels => keeps_ok rfl
    | _ => exact keeps_error
  · exact keeps_error

end Statement

/-! ## Lines -/

namespace Cursor

theorem operator?_isPrefix {cs text : List Char} {o : Operator} (h : operator? cs = some (o, text)) :
    text <+: cs := by
  unfold operator? at h
  split at h <;> cases h
  case h_2 | h_4 | h_9 => exact List.prefix_append [_] _
  all_goals exact List.prefix_append [_, _] _

end Cursor

namespace Move

variable (M : Move)

theorem operator?_append (cs : List Char) : Cursor.operator? (cs ++ M.tail) = Cursor.operator? cs := by
  fun_cases Cursor.operator? cs with
  | case1 | case3 | case5 | case6 | case7 | case8 | case9 => rfl
  | case2 rest h => exact Cursor.operator?.eq_2 _ (M.ne_append (p := ['=']) (by decide) h)
  | case4 rest h => exact Cursor.operator?.eq_4 _ (M.ne_append (p := ['=']) (by decide) h)
  | case10 cs h₁ h₂ h₃ h₄ h₅ h₆ h₇ h₈ h₉ =>
    exact Cursor.operator?.eq_10 _ (M.ne_append (p := ['>', '=']) (by decide) h₁)
      (M.ne_append (p := ['>']) (by decide) h₂) (M.ne_append (p := ['<', '=']) (by decide) h₃)
      (M.ne_append (p := ['<']) (by decide) h₄) (M.ne_append (p := ['=', '=']) (by decide) h₅)
      (M.ne_append (p := ['+', '=']) (by decide) h₆) (M.ne_append (p := ['-', '=']) (by decide) h₇)
      (M.ne_append (p := ['-', '>']) (by decide) h₈) (M.ne_append (p := [',']) (by decide) h₉)

def line (l : Cursor.Line) : Cursor.Line :=
  ⟨l.pieces.map (·.relocate M.span), l.opensBlock, M.position l.stop⟩

theorem carries_scanPiece (c : Cursor) :
    Carries M (·.relocate M.span) c c.scanPiece (M.cursor c).scanPiece := by
  unfold Cursor.scanPiece
  rw [cursor_rest, M.operator?_append]
  split
  · next operator text hop =>
    have hpast := Cursor.operator?_isPrefix hop
    rw [← M.cursor_past hpast]
    exact carries_ok rfl rfl (Cursor.reaches_past hpast)
  · rw [M.startsWith_cursor c (by decide)]
    split
    · exact carries_error
    · exact Carries.bind (M.carries_scanValue c) fun v d _ => carries_ok rfl rfl (.refl d)

theorem carries_linePieces {n m : Nat} (h : n ≤ m) (stop : Position) (c : Cursor) :
    Carries M M.line c (c.linePieces n stop) ((M.cursor c).linePieces m (M.position stop)) := by
  induction n generalizing m stop c with
  | zero => exact carries_error
  | succ n ih =>
    obtain ⟨m, rfl⟩ : ∃ k, m = k + 1 := ⟨m - 1, by omega⟩
    simp only [Cursor.linePieces, M.skipInlineBlanks_cursor,
      M.atWord_cursor _ (show '\n' ∉ "do".toList by decide), M.atLineEnd_cursor]
    refine Carries.since ?_ c.reaches_skipInlineBlanks
    generalize c.skipInlineBlanks = d
    split
    · next hdo =>
      have hpast : "do".toList <+: d.rest :=
        List.isPrefixOf_iff_prefix.1 (Bool.and_eq_true_iff.1 hdo).1
      rw [← M.cursor_past hpast]
      exact carries_ok rfl rfl (Cursor.reaches_past hpast)
    split
    · exact carries_ok rfl rfl (.refl d)
    · refine Carries.bind (M.carries_scanPiece d) fun piece e _ => ?_
      refine Carries.bind (ih (Nat.le_of_succ_le_succ h) e.pos e) fun line rest _ => ?_
      exact carries_ok rfl rfl (.refl rest)

theorem carries_scanLine (c : Cursor) : Carries M M.line c c.scanLine (M.cursor c).scanLine := by
  refine M.carries_linePieces ?_ c.pos c
  rw [cursor_rest, List.length_append]
  omega

/-! ## Statements -/

/-- The readers of statements and of blocks. The header of a block only feeds an error. -/
structure CarriesStatements (n m : Nat) : Prop where
  statement : ∀ c, Carries M (·.relocate M.span) c (c.statement n) ((M.cursor c).statement m)
  statements : ∀ header header' c, Carries M (Statement.relocateAll M.span) c
    (Cursor.statements n (some header) c) (Cursor.statements m (some header') (M.cursor c))

variable {M} {n m : Nat}

theorem carries_of_keeps {α β γ δ : Type} {f : α → β} {g : γ → δ} {c : Cursor}
    {r : Except SyntaxError α} {r' : Except SyntaxError β} {k : α → Except SyntaxError (γ × Cursor)}
    {k' : β → Except SyntaxError (δ × Cursor)} (h : Keeps f r r')
    (hk : ∀ a, Carries M g c (k a) (k' (f a))) : Carries M g c (r >>= k) (r' >>= k') := by
  intro b d hbd
  cases r with
  | error e => cases hbd
  | ok a =>
    rw [h a rfl]
    exact hk a b d hbd

theorem CarriesStatements.statement_succ (h : M.CarriesStatements n m) (c : Cursor) :
    Carries M (·.relocate M.span) c (c.statement (n + 1)) ((M.cursor c).statement (m + 1)) := by
  rw [Cursor.statement, Cursor.statement]
  refine Carries.bind (M.carries_scanLine c) fun ⟨pieces, opensBlock, stop⟩ d _ => ?_
  cases opensBlock with
  | true =>
    refine carries_of_keeps (Statement.keeps_blockHeader M.span pieces (c.spanTo d)) fun header => ?_
    refine Carries.bind (h.statements _ _ d) fun body e _ => ?_
    exact carries_ok rfl rfl (.refl e)
  | false =>
    refine carries_of_keeps (Statement.keeps_ofLine M.span pieces ⟨c.file, c.pos, stop⟩) fun s => ?_
    exact carries_ok rfl rfl (.refl d)

theorem CarriesStatements.statements_succ (h : M.CarriesStatements n m) (header header' : Span)
    (c : Cursor) :
    Carries M (Statement.relocateAll M.span) c (Cursor.statements (n + 1) (some header) c)
      (Cursor.statements (m + 1) (some header') (M.cursor c)) := by
  simp only [Cursor.statements]
  by_cases hend : c.skipSeparators.rest = []
  · simp only [hend, List.isEmpty_nil, if_true]
    exact carries_error
  have hsome : ¬ c.skipSeparators.rest.isEmpty = true := by simpa using hend
  have hmoved : ¬ (M.cursor c.skipSeparators).rest.isEmpty = true := by simp [hend]
  rw [M.skipSeparators_cursor hend, if_neg hsome, if_neg hmoved, M.atWord_cursor _ (by decide)]
  refine Carries.since ?_ c.reaches_skipSeparators
  generalize c.skipSeparators = d
  by_cases hword : d.atWord "end" = true
  · rw [if_pos hword, if_pos hword]
    have hpast : "end".toList <+: d.rest :=
      List.isPrefixOf_iff_prefix.1 (Bool.and_eq_true_iff.1 hword).1
    rw [← M.cursor_past hpast]
    exact carries_ok rfl rfl (Cursor.reaches_past hpast)
  · rw [if_neg hword, if_neg hword]
    refine Carries.bind (h.statement d) fun first e _ => ?_
    refine Carries.bind (h.statements header header' e) fun more rest _ => ?_
    exact carries_ok rfl rfl (.refl rest)

theorem carriesStatements (M : Move) {n m : Nat} (h : n ≤ m) : M.CarriesStatements n m := by
  induction n generalizing m with
  | zero => exact ⟨fun _ => carries_error, fun _ _ _ => carries_error⟩
  | succ n ih =>
    obtain ⟨m, rfl⟩ : ∃ k, m = k + 1 := ⟨m - 1, by omega⟩
    have hn := ih (Nat.le_of_succ_le_succ h)
    exact ⟨hn.statement_succ, hn.statements_succ⟩

end Move

/-! ## Texts -/

namespace Cursor

/-- Reading never changes where the text ends. -/
theorem Reaches.stop_eq {c d : Cursor} (h : c.Reaches d) : d.pos.after d.rest = c.pos.after c.rest := by
  obtain ⟨cs, ⟨rest, hrest⟩, rfl⟩ := h
  rw [past_rest hrest.symm, past, ← hrest, Position.after_append]

/-- Separators that fill a text go on behind the end of the line, also out of a comment. -/
theorem trivia_append_line (comment : Bool) (cs more : List Char)
    (h : trivia isSeparator comment cs = cs) : trivia isSeparator comment (cs ++ '\n' :: more) = cs ++
      '\n' :: trivia isSeparator false more := by
  induction cs generalizing comment with
  | nil => cases comment <;> rfl
  | cons c cs ih =>
    cases comment with
    | true =>
      rw [trivia, List.cons.injEq] at h
      rw [List.cons_append, trivia, ih _ h.2, List.cons_append]
    | false =>
      have hslash : (cs ++ '\n' :: more).head? = some '/' ↔ cs.head? = some '/' := by cases cs <;> simp
      simp only [List.cons_append, trivia, hslash] at h ⊢
      split at h
      · next hc =>
        rw [if_pos hc, ih _ (List.cons.inj h).2]
      · next hc =>
        rw [if_neg hc]
        split at h
        · next hcomment => rw [if_pos hcomment, ih _ (List.cons.inj h).2]
        · cases h

theorem skipSeparators_of_end {c : Cursor} (h : c.skipSeparators.rest = []) :
    trivia isSeparator false c.rest = c.rest := by
  obtain ⟨rest, hrest⟩ := trivia_isPrefix isSeparator false c.rest
  rw [skipSeparators, past_rest hrest.symm] at h
  rw [h, List.append_nil] at hrest
  exact hrest

theorem statements_of_end {c : Cursor} (h : c.skipSeparators.rest = []) (n : Nat) :
    c.statements (n + 1) none = .ok ([], c.skipSeparators) := by
  simp [statements, h]

structure TakesStatement (c : Cursor) (n : Nat) (s : Statement) (d : Cursor) : Prop where
  rest : c.skipSeparators.rest ≠ []
  word : c.skipSeparators.atWord "end" = false
  statement : c.skipSeparators.statement n = .ok (s, d)

theorem TakesStatement.statements_eq {c d e : Cursor} {n : Nat} {s : Statement} {ts : List Statement}
    (h : c.TakesStatement n s d) (hts : d.statements n none = .ok (ts, e)) :
    c.statements (n + 1) none = .ok (s :: ts, e) := by
  simp only [statements, List.isEmpty_iff, h.rest, h.word, h.statement, if_false, Bool.false_eq_true]
  rw [ok_bind, hts]
  rfl

/-- The reader of a text is at its end, or takes a statement and goes on. -/
theorem statements_cases {n : Nat} {c d : Cursor} {ss : List Statement}
    (h : c.statements (n + 1) none = .ok (ss, d)) :
    (c.skipSeparators.rest = [] ∧ ss = [] ∧ d = c.skipSeparators) ∨
    ∃ s e ts, c.TakesStatement n s e ∧ e.statements n none = .ok (ts, d) ∧ ss = s :: ts := by
  by_cases hend : c.skipSeparators.rest = []
  · rw [statements_of_end hend] at h
    cases h
    exact .inl ⟨hend, rfl, rfl⟩
  simp only [statements, List.isEmpty_iff, hend, if_false] at h
  cases hword : c.skipSeparators.atWord "end" with
  | true =>
    rw [if_pos hword] at h
    cases h
  | false =>
    rw [if_neg (by simp [hword])] at h
    cases hs : c.skipSeparators.statement n with
    | error e => rw [hs] at h; cases h
    | ok p =>
      obtain ⟨s, e⟩ := p
      rw [hs, ok_bind] at h
      cases hts : e.statements n none with
      | error e => simp only [hts] at h; cases h
      | ok p =>
        obtain ⟨ts, d⟩ := p
        simp only [hts, ok_bind] at h
        cases h
        exact .inr ⟨s, e, ts, ⟨hend, hword, hs⟩, hts, rfl⟩

theorem statements_congr {c d : Cursor} (h : c.skipSeparators = d.skipSeparators) (n : Nat)
    (header : Option Span) : statements (n + 1) header c = statements (n + 1) header d := by
  simp only [statements, h]

end Cursor

namespace Move

variable (M : Move)

def next (c : Cursor) (more : List Char) : Cursor :=
  ⟨M.file, (M.position (c.pos.after c.rest)).advance '\n', more⟩

theorem skipSeparators_next {c : Cursor} {more : List Char} (ht : M.tail = '\n' :: more)
    (h : c.skipSeparators.rest = []) :
    (M.cursor c).skipSeparators = (M.next c more).skipSeparators := by
  have hrest : (M.cursor c).rest = (c.rest ++ ['\n']) ++ more := by
    rw [cursor_rest, ht, List.append_assoc]; rfl
  have hnext : M.next c more = (M.cursor c).past (c.rest ++ ['\n']) := by
    rw [Cursor.past_eq hrest, Position.after_append, next, M.position_after]
    rfl
  rw [hnext, Cursor.skipSeparators, Cursor.skipSeparators, Cursor.past_past, Cursor.past_rest hrest,
    cursor_rest, ht, Cursor.trivia_append_line _ _ _ (Cursor.skipSeparators_of_end h),
    List.append_assoc]
  rfl

theorem skipSeparators_of_tail_nil (ht : M.tail = []) (c : Cursor) :
    (M.cursor c).skipSeparators = M.cursor c.skipSeparators := by
  rw [Cursor.skipSeparators, cursor_rest, ht, List.append_nil, Cursor.skipSeparators,
    M.cursor_past (Cursor.trivia_isPrefix ..)]

theorem statements_cons {n m : Nat} {c d : Cursor} {s : Statement}
    (h : c.TakesStatement n s d) (hm : n ≤ m) {ts : List Statement} {e : Cursor}
    (hts : (M.cursor d).statements m none = .ok (ts, e)) :
    (M.cursor c).statements (m + 1) none = .ok (s.relocate M.span :: ts, e) := by
  refine Cursor.TakesStatement.statements_eq ⟨?_, ?_, ?_⟩ hts
  · rw [M.skipSeparators_cursor h.rest, cursor_rest]
    simp [h.rest]
  · rw [M.skipSeparators_cursor h.rest, M.atWord_cursor _ (by decide), h.word]
  · rw [M.skipSeparators_cursor h.rest, ((M.carriesStatements hm).statement _ _ _ h.statement).1]

theorem reaches_of_takesStatement {n : Nat} {c d : Cursor} {s : Statement}
    (h : c.TakesStatement n s d) : c.Reaches d :=
  c.reaches_skipSeparators.trans ((Move.carriesStatements ⟨0, 0, 0, [], by simp⟩ le_rfl).statement _ _ _
    h.statement).2

theorem statements_of_tail_nil (ht : M.tail = []) {n m : Nat} (hm : n ≤ m) {c d : Cursor}
    {ss : List Statement} (h : c.statements n none = .ok (ss, d)) :
    (M.cursor c).statements m none = .ok (ss.map (·.relocate M.span), M.cursor d) := by
  induction n generalizing m c ss with
  | zero => cases h
  | succ n ih =>
    obtain ⟨m, rfl⟩ : ∃ k, m = k + 1 := ⟨m - 1, by omega⟩
    obtain ⟨hend, rfl, rfl⟩ | ⟨s, e, ts, hs, hts, rfl⟩ := Cursor.statements_cases h
    · rw [Cursor.statements_of_end, M.skipSeparators_of_tail_nil ht]
      · rfl
      · rw [M.skipSeparators_of_tail_nil ht, cursor_rest, hend, ht]
        rfl
    · exact M.statements_cons hs (by omega) (ih (by omega) hts)

/-- A text whose statements were read up to its end goes on with what stands after the line end. -/
theorem statements_of_tail_line {more : List Char} (ht : M.tail = '\n' :: more) {n k m : Nat}
    {c d e : Cursor} {ss ts : List Statement} (h : c.statements n none = .ok (ss, d))
    (hnext : ∀ m, k ≤ m → (M.next c more).statements m none = .ok (ts, e)) (hm : n + k ≤ m) :
    (M.cursor c).statements m none = .ok (ss.map (·.relocate M.span) ++ ts, e) := by
  induction n generalizing m c ss with
  | zero => cases h
  | succ n ih =>
    obtain ⟨m, rfl⟩ : ∃ k, m = k + 1 := ⟨m - 1, by omega⟩
    obtain ⟨hend, rfl, -⟩ | ⟨s, e', ts', hs, hss, rfl⟩ := Cursor.statements_cases h
    · rw [Cursor.statements_congr (M.skipSeparators_next ht hend), hnext (m + 1) (by omega)]
      rfl
    · have hstop : M.next e' more = M.next c more := by
        rw [next, (reaches_of_takesStatement hs).stop_eq, next]
      exact M.statements_cons hs (by omega) (ih hss (by rw [hstop]; exact hnext) (by omega))

end Move

theorem Position.line_after (p : Position) (cs : List Char) :
    (p.after cs).line = p.line + cs.count '\n' := by
  induction cs generalizing p with
  | nil => rfl
  | cons c cs ih =>
    rw [after_cons, ih, advance, List.count_cons]
    by_cases hc : c = '\n'
    · simp [hc]
      omega
    · simp [hc]

theorem Position.offset_after (p : Position) (cs : List Char) :
    (p.after cs).offset = p.offset + (cs.map Char.utf8Size).sum := by
  induction cs generalizing p with
  | nil => rfl
  | cons c cs ih =>
    rw [after_cons, ih, advance, List.map_cons, List.sum_cons, ← Nat.add_assoc]
    split
    · next hc => rw [hc]; rfl
    · rfl

namespace Move

def before (file : FileId) (text : String) : Move := ⟨file, 0, 0, '\n' :: text.toList, by simp⟩

def behind (file : FileId) (text : String) : Move :=
  ⟨file, text.toList.count '\n' + 1, (text.toList.map Char.utf8Size).sum + 1, [], by simp⟩

theorem cursor_before (file f : FileId) (t₁ t₂ : String) :
    (before file t₂).cursor (.ofText f t₁) = .ofText file (t₁ ++ "\n" ++ t₂) := by
  simp [cursor, before, Cursor.ofText, position, Position.origin]

theorem next_before (file f₁ f₂ : FileId) (t₁ t₂ : String) :
    (before file t₂).next (.ofText f₁ t₁) t₂.toList = (behind file t₁).cursor (.ofText f₂ t₂) := by
  simp [next, cursor, before, behind, Cursor.ofText, position, Position.origin, Position.advance,
    Position.line_after, Position.offset_after]

end Move

theorem parse_eq_ok {file : FileId} {text : String} {ss : List Statement} :
    parse file text = .ok ss ↔
      ∃ d, (Cursor.ofText file text).statements (2 * text.toList.length + 2) none = .ok (ss, d) := by
  have hparse :
    parse file text =
    ((Cursor.ofText file text).statements (2 * text.toList.length + 2) none).map (·.1) := rfl
  rw [hparse]
  cases (Cursor.ofText file text).statements (2 * text.toList.length + 2) none with
  | error e => simp [Except.map]
  | ok p => simp [Except.map, Prod.ext_iff]

/-- Two texts with a line end between them hold the statements of both, each moved to its place. -/
theorem parse_append {f₁ f₂ : FileId} {t₁ t₂ : String} {ss₁ ss₂ : List Statement}
    (h₁ : parse f₁ t₁ = .ok ss₁) (h₂ : parse f₂ t₂ = .ok ss₂) (file : FileId) :
    parse file (t₁ ++ "\n" ++ t₂) =
      .ok (ss₁.map (·.relocate (Move.before file t₂).span) ++
        ss₂.map (·.relocate (Move.behind file t₁).span)) := by
  obtain ⟨d₁, h₁⟩ := parse_eq_ok.1 h₁
  obtain ⟨d₂, h₂⟩ := parse_eq_ok.1 h₂
  refine parse_eq_ok.2 ⟨(Move.behind file t₁).cursor d₂, ?_⟩
  rw [← Move.cursor_before file f₁]
  refine (Move.before file t₂).statements_of_tail_line rfl h₁ (k := 2 * t₂.toList.length + 2) ?_ ?_
  · intro m hm
    rw [Move.next_before file f₁ f₂]
    exact (Move.behind file t₁).statements_of_tail_nil rfl hm h₂
  · simp only [String.toList_append, List.length_append]
    have : "\n".toList.length = 1 := rfl
    omega

end Worldbook
