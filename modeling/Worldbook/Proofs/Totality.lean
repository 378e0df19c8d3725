import Worldbook.Proofs.Lookup
import Worldbook.Proofs.Rounds

/-!
# Reading ends

Every text is read to its statements or to a syntax error. The reader never
runs out of rounds, since each takes a character. It never meets a case that it
has no answer for either: the shapes of a line are written once more with the
cases left out that earlier tests exclude, and every line has a shape there.
-/

namespace Worldbook

/-! ## Shapes without the excluded cases -/

namespace Statement

/-- A line of one value. Nothing else comes here. -/
def bare? (pieces : List Piece) (line : Span) : Option Statement :=
  match pieces.getLast? with
  | some (.value v) => some (.bare v line)
  | _ => none

def ofPredicate? (word : String) (line : Span) (args : List Value) :
    List Piece → Option (Except SyntaxError Statement)
  | [] => none
  | .value v :: rest => ofPredicate? word line (args ++ [v]) rest
  | .op o s :: rest => some (ofPredicate word line args (.op o s :: rest))

def ofRel? (key : String) (args : List Piece) (line : Span) : Option (Except SyntaxError Statement) :=
  if args.findIdx Piece.isArrow + 1 ≤ args.length then some (ofRel key args line) else none

/-- The short form of a relationship kind, whose values are taken one by one
once they have been counted. -/
def ofRelationshipKindLine? (args : List Piece) (line : Span) : Option (Except SyntaxError Statement) :=
  match Piece.splitAtArrow false args with
  | .error e => some (.error e)
  | .ok (before, after) =>
    if before.length ≠ 2 ∨ after.length < 1 ∨
      2 < after.length then some (.error ⟨.relationshipKindUsage, line⟩)
    else match before[0]?, before[1]? with
      | some kind, some source =>
        let body := shorthand "srcKinds" (asArray source) ::
          (after[0]?.map fun target => shorthand "dstKinds" (asArray target)).toList ++
          (after[1]?.map (shorthand "description")).toList
        some (.ok (.block "relationship_kind" false [kind] body line))
      | _, _ => none

/-- A line whose key has no shape of its own. The piece behind the key is
looked up when the key is not alone. -/
def ofKeyed? (key : String) (quoted : Bool) (keyValue : Value) (pieces : List Piece) (line : Span) :
    Option (Except SyntaxError Statement) :=
  if pieces.length = 1 then (bare? pieces line).map .ok
  else match pieces[1]? with
    | none => none
    | some second =>
      if (match second with | .value v => v.isWord "in" | .op .. => false) then
        some do ofItems (some key) (← Piece.values (pieces.drop 2)) keyValue.span line
      else if pieces.any Piece.isComparator then ofPredicate? key line [] (pieces.drop 1)
      else some do
        let values ← Piece.values (pieces.drop 1)
        match values.getLast? with
        | some value => return .field key quoted values.dropLast value line
        | none => .error ⟨.expectedValue, line⟩

/-- The statement of a line, where there is none for a case that earlier tests exclude. -/
def ofLine? (pieces : List Piece) (line : Span) : Option (Except SyntaxError Statement) :=
  match pieces.head? with
  | none => some (.error ⟨.expectedStatement, line⟩)
  | some (.op _ s) => some (.error ⟨.expectedKeyword, s⟩)
  | some (.value first) =>
    match first with
    | .name key s =>
      let args := pieces.drop 1
      let hasArrow := pieces.any Piece.isArrow
      if key = "mutate" then some (ofMutate args line)
      else if key = "from" then some (ofOrigin args line)
      else if key = "in" then some do ofItems none (← Piece.values args) s line
      else if relWords.contains key && hasArrow then ofRel? key args line
      else if key = "axis" && hasArrow then some (ofAxisLine args line)
      else if key = "relationship_kind" && hasArrow then ofRelationshipKindLine? args line
      else ofKeyed? key false first pieces line
    | .str key _ =>
      if 1 < pieces.length then ofKeyed? key true first pieces line else (bare? pieces line).map .ok
    | _ =>
      if pieces.length = 1 then (bare? pieces line).map .ok else
        some (.error ⟨.expectedKeyword, first.span⟩)

variable {line : Span}

theorem ofPredicate?_eq (word : String) (args : List Value) {ps : List Piece}
    (h : ps.any Piece.isComparator = true) :
    ofPredicate? word line args ps = some (ofPredicate word line args ps) := by
  induction ps generalizing args with
  | nil => cases h
  | cons p ps ih =>
    cases p with
    | value v =>
      have hrest : ps.any Piece.isComparator = true := by simpa [Piece.isComparator] using h
      exact ih (args ++ [v]) hrest
    | op o s => rfl

theorem ofRel?_eq (key : String) {args : List Piece} (h : args.any Piece.isArrow = true) :
    ofRel? key args line = some (ofRel key args line) := by
  have hlt : args.findIdx Piece.isArrow < args.length := List.findIdx_lt_length.2 (by simpa using h)
  exact if_pos hlt

theorem ofRelationshipKindLine?_eq (args : List Piece) :
    ofRelationshipKindLine? args line = some (ofRelationshipKindLine args line) := by
  unfold ofRelationshipKindLine? ofRelationshipKindLine
  cases Piece.splitAtArrow false args with
  | error e => rfl
  | ok parts =>
    obtain ⟨before, after⟩ := parts
    rcases before with _ | ⟨kind, _ | ⟨source, _ | ⟨c, before⟩⟩⟩
    · rfl
    · rfl
    · rcases after with _ | ⟨target, _ | ⟨description, _ | ⟨c, after⟩⟩⟩
      · rfl
      · rfl
      · rfl
      · simp [ok_bind]
    · simp [ok_bind]

theorem ofKeyed?_eq (key : String) (quoted : Bool) (keyValue : Value) (args : List Piece) :
    ofKeyed? key quoted keyValue (.value keyValue :: args) line =
      some (ofKeyed key quoted keyValue args line) := by
  cases args with
  | nil => rfl
  | cons second more =>
    by_cases hword : (match second with | .value v => v.isWord "in" | .op .. => false) = true
    · have hkeyed : ofKeyed key quoted keyValue (second :: more) line =
          (do ofItems (some key) (← Piece.values more) keyValue.span line) := if_pos hword
      rw [hkeyed]
      exact if_pos hword
    have hkeyed : ofKeyed? key quoted keyValue (.value keyValue :: second :: more) line =
        if (second :: more).any Piece.isComparator then ofPredicate? key line [] (second :: more) else
          _ := if_neg hword
    rw [hkeyed]
    by_cases hcompare : (second :: more).any Piece.isComparator = true
    · rw [if_pos hcompare, ofPredicate?_eq key [] hcompare]
      exact congrArg some ((if_neg hword).trans (if_pos hcompare)).symm
    · rw [if_neg hcompare]
      exact congrArg some ((if_neg hword).trans (if_neg hcompare)).symm

/-- Every line has a shape: none of the left out cases is met. -/
theorem ofLine?_eq (pieces : List Piece) (line : Span) :
    ofLine? pieces line = some (ofLine pieces line) := by
  rcases pieces with _ | ⟨v | ⟨o, s⟩, args⟩
  · rfl
  · cases v with
    | name key s =>
      have harrow : (Piece.value (.name key s) :: args).any Piece.isArrow =
        args.any Piece.isArrow := rfl
      simp only [ofLine?, List.head?_cons, List.drop_succ_cons, List.drop_zero, harrow, ofLine]
      split
      · rfl
      split
      · rfl
      split
      · rfl
      split
      · next hrel => exact ofRel?_eq key (Bool.and_eq_true_iff.1 hrel).2
      split
      · rfl
      split
      · exact ofRelationshipKindLine?_eq args
      · exact ofKeyed?_eq key false (.name key s) args
    | str key s =>
      cases args with
      | nil => rfl
      | cons second more =>
        have hlength : 1 < (Piece.value (.str key s) :: second :: more).length := by simp
        simp only [ofLine?, List.head?_cons, if_pos hlength]
        exact ofKeyed?_eq key true (.str key s) (second :: more)
    | _ =>
      cases args with
      | nil => rfl
      | cons second more => simp [ofLine?, ofLine, Piece.span]
  · cases args <;> rfl

end Statement

/-! ## The main result -/

namespace Cursor

/-- From `c` the reader has come to the later place `d`, which is not behind the end of the text. -/
structure StepsTo (text : String) (c d : Cursor) : Prop where
  reaches : c.Reaches d
  later : c.pos.offset < d.pos.offset
  bounded : d.pos.offset ≤ text.utf8ByteSize

/-- What is read at a cursor takes a character of the text. -/
structure Progresses (text : String) (c : Cursor) : Prop where
  piece : ∀ p d, c.scanPiece = .ok (p, d) → c.StepsTo text d
  value : ∀ n v d, c.value n = .ok (v, d) → c.StepsTo text d
  statement : ∀ n s d, c.statement n = .ok (s, d) → c.StepsTo text d
  body : ∀ n header ss d, c.statements n (some header) = .ok (ss, d) → c.StepsTo text d

/-- The loops at a cursor go from round to round, and a round that is
followed by another takes a character. -/
structure Loops (text : String) (c : Cursor) : Prop where
  items : ∀ n opening closing start, Cursor.sequence (n + 1) opening closing start c =
    itemRound n opening closing start c >>=
    Round.next List.cons (Cursor.sequence n opening closing start)
  item : ∀ n opening closing start v d, itemRound n opening closing start c = .ok (.more v d) →
    c.StepsTo text d
  members : ∀ n start, Cursor.members (n + 1) start c =
    memberRound n start c >>= Round.next List.cons (Cursor.members n start)
  member : ∀ n start m d, memberRound n start c = .ok (.more m d) → c.StepsTo text d
  pieces : ∀ n, c.linePieces (n + 1) c.pos = c.pieceRound >>=
    Round.next (fun piece line => { line with pieces := piece :: line.pieces }) fun d =>
      d.linePieces n d.pos
  piece : ∀ p d, c.pieceRound = .ok (.more p d) → c.StepsTo text d
  statements : ∀ n header, Cursor.statements (n + 1) header c =
    statementRound n header c >>= Round.next List.cons (Cursor.statements n header)
  statement : ∀ n header s d, statementRound n header c = .ok (.more s d) → c.StepsTo text d

structure Enough (c : Cursor) : Prop where
  value : ∀ n, 2 * c.rest.length + 1 ≤ n → c.value n = c.value (2 * c.rest.length + 1)
  line : ∀ n, c.rest.length + 1 ≤ n → c.linePieces n c.pos = c.scanLine
  statement : ∀ n, 2 * c.rest.length + 1 ≤ n → c.statement n = c.statement (2 * c.rest.length + 1)
  statements : ∀ n, 2 * c.rest.length + 2 ≤ n →
    c.statements n none = c.statements (2 * c.rest.length + 2) none

variable {c : Cursor} {file : FileId} {text : String}

theorem Advances.stepsTo {d : Cursor} (h : c.Advances d) (hc : (ofText file text).Reaches c) :
    c.StepsTo text d := by
  refine ⟨h.reaches, ?_, (exact_of_reaches (hc.trans h.reaches)).2.le_size⟩
  obtain ⟨cs, hne, -, rfl⟩ := h
  exact c.pos.offset_lt_after hne

theorem progresses_of_reaches (hc : (ofText file text).Reaches c) : c.Progresses text := by
  refine ⟨?_, ?_, ?_, ?_⟩
  · intro p d h
    exact (advances_of_scanPiece h).stepsTo hc
  · intro n v d h
    exact (advances_of_value h).stepsTo hc
  · intro n s d h
    exact (advances_of_statement h).stepsTo hc
  · intro n header ss d h
    exact (advances_of_statements h).stepsTo hc

theorem loops_of_reaches (hc : (ofText file text).Reaches c) : c.Loops text where
  items n opening closing start := sequence_eq n opening closing start c
  item _ _ _ _ _ _ h := (advances_of_itemRound h).stepsTo hc
  members n start := members_eq n start c
  member _ _ _ _ h := (advances_of_memberRound h).stepsTo hc
  pieces n := linePieces_eq n c
  piece _ _ h := (advances_of_pieceRound h).stepsTo hc
  statements n header := statements_eq n header c
  statement _ _ _ _ h := (advances_of_statementRound h).stepsTo hc

theorem enough (c : Cursor) : c.Enough where
  value _ hn := value_enough hn
  line _ hn := linePieces_enough hn
  statement _ hn := statement_enough hn
  statements _ hn := statements_enough hn

end Cursor

/-- Every text is read to its statements or to a syntax error, with a bound
on the rounds that is linear in its length. At every place of the text what
is read takes a character and a loop goes on only behind one, the text can be
cut and the line of the place found, and no line is without a shape. -/
theorem parse_progresses (file : FileId) (text : String) :
    ((∃ ss, parse file text = .ok ss) ∨ ∃ e, parse file text = .error e ∧ e.cause ≠ .exhausted) ∧
    (∀ n, 2 * text.toList.length + 2 ≤ n → ((Cursor.ofText file text).statements n none).map (·.1) =
      parse file text) ∧
    (∀ c, (Cursor.ofText file text).Reaches c → c.Progresses text ∧ c.Loops text ∧ c.Enough ∧
      c.Sited text) ∧
    ∀ pieces line, Statement.ofLine? pieces line = some (Statement.ofLine pieces line) := by
  have hparse :
    parse file text =
    ((Cursor.ofText file text).statements (2 * text.toList.length + 2) none).map (·.1) := rfl
  have hread := Cursor.proceeds_ofText file text
  refine ⟨?_, ?_, ?_, Statement.ofLine?_eq⟩
  · rw [hparse]
    cases hresult : (Cursor.ofText file text).statements (2 * text.toList.length + 2) none with
    | error e => exact .inr ⟨e, rfl, (hread.2 e hresult).1⟩
    | ok p => exact .inl ⟨p.1, rfl⟩
  · intro n hn
    rw [hparse]
    exact congrArg _ (Cursor.statements_enough hn)
  · intro c hc
    exact ⟨Cursor.progresses_of_reaches hc, Cursor.loops_of_reaches hc, c.enough,
      Cursor.sited_of_reaches hc⟩

end Worldbook
