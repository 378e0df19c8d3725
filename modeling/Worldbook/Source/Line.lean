import Worldbook.Source.SyntaxError

/-!
# Lines

A line is a list of values and operators. Its first word and its operators decide the shape of
the statement. The short forms of `axis` and `relationship_kind` are lines that stand for blocks.
-/

namespace Worldbook

inductive Operator where
  | compare (comparator : Comparator)
  | change (change : Change)
  | arrow
  | comma
deriving DecidableEq

def Operator.text : Operator → String
  | compare c => c.text
  | change c => c.text
  | arrow => "->"
  | comma => ","

inductive Piece where
  | value (value : Value)
  | op (operator : Operator) (span : Span)

namespace Piece

def span : Piece → Span
  | value v => v.span
  | op _ s => s

def isArrow : Piece → Bool
  | op .arrow _ => true
  | _ => false

def isComparator : Piece → Bool
  | op (.compare _) _ => true
  | _ => false

def valuesOr (cause : String → SyntaxError.Cause) : List Piece → Except SyntaxError (List Value)
  | [] => .ok []
  | value v :: rest => do return v :: (← valuesOr cause rest)
  | op o s :: _ => .error ⟨cause o.text, s⟩

def values : List Piece → Except SyntaxError (List Value) := valuesOr .unexpectedOperator

def numberAfter (operator : String) (line : Span) : Option Piece → Except SyntaxError Number
  | some (value (.num n _)) => .ok n
  | some other => .error ⟨.expectedNumberAfter operator, other.span⟩
  | none => .error ⟨.expectedNumberAfter operator, line⟩

def splitAtArrow (seen : Bool) : List Piece → Except SyntaxError (List Value × List Value)
  | [] => .ok ([], [])
  | op .arrow s :: rest =>
    if seen then .error ⟨.unexpectedSecondArrow, s⟩ else splitAtArrow true rest
  | op o s :: _ => .error ⟨.unexpectedOperator o.text, s⟩
  | value v :: rest => do
    let (before, after) ← splitAtArrow seen rest
    return if seen then (before, v :: after) else (v :: before, after)

end Piece

namespace Statement

/-- A list `in item*`. A single array stands for its items. -/
def ofItems (key : Option String) (items : List Value) (keySpan line : Span) :
    Except SyntaxError Statement :=
  match items with
  | [] => .error ⟨.expectedItems, keySpan⟩
  | [.array inner _] => .ok (.within key inner line)
  | items => .ok (.within key items line)

/-- The line `mutate target id (+=|-=) n`; `args` follow the word. -/
def ofMutate (args : List Piece) (line : Span) : Except SyntaxError Statement := do
  let (target, args) ← match args with
    | .value (.name target _) :: rest => .ok (target, rest)
    | other :: _ => .error ⟨.expectedMutationTarget, other.span⟩
    | [] => .error ⟨.expectedMutationTarget, line⟩
  let (id, args) ← match args with
    | .value id :: rest => .ok (id, rest)
    | _ => .error ⟨.expectedMutationId target, line⟩
  let (change, args) ← match args with
    | .op (.change change) _ :: rest => .ok (change, rest)
    | other :: _ => .error ⟨.expectedChange, other.span⟩
    | [] => .error ⟨.expectedChange, line⟩
  let amount ← Piece.numberAfter change.text line args.head?
  match args.drop 1 with
  | [] => return .mutate target id change amount line
  | extra :: _ => .error ⟨.inputAfterMutation, extra.span⟩

/-- The line `from source [via relationship direction]`; `args` follow the word. -/
def ofOrigin (args : List Piece) (line : Span) : Except SyntaxError Statement := do
  match ← Piece.values args with
  | [] => .error ⟨.expectedOrigin, line⟩
  | [source] => return .origin source none line
  | source :: via :: rest =>
    if via.isWord "via" then
      match rest with
      | [] => .error ⟨.expectedViaKind, line⟩
      | [_] => .error ⟨.expectedViaDirection, line⟩
      | [kind, direction] => return .origin source (some (kind, direction)) line
      | _ :: _ :: extra :: _ => .error ⟨.inputAfterOrigin, extra.span⟩
    else .error ⟨.expectedVia, via.span⟩

/-- The line `rel [label] kind source -> target value*`; `args` follow the word. -/
def ofRel (key : String) (args : List Piece) (line : Span) : Except SyntaxError Statement := do
  let (before, fromArrow) := args.span fun p => !p.isArrow
  let (label, kind, source) ← match ← Piece.values before with
    | [kind, source] => .ok (none, kind, source)
    | [label, kind, source] => .ok (some label, kind, source)
    | _ => .error ⟨.relUsage key, line⟩
  match ← Piece.values (fromArrow.drop 1) with
  | [] => .error ⟨.expectedRelTarget, line⟩
  | target :: values => return .rel key label kind source target values line

/-- A comparison `word arg* op n[, m]`, from the first argument not yet taken. -/
def ofPredicate (word : String) (line : Span) (args : List Value) :
    List Piece → Except SyntaxError Statement
  | .value v :: rest => ofPredicate word line (args ++ [v]) rest
  | .op (.compare comparator) _ :: rest => do
    let number ← Piece.numberAfter comparator.text line rest.head?
    match rest.drop 1 with
    | [] => return .predicate word args comparator number none line
    | .op .comma _ :: more =>
      let upper ← Piece.numberAfter "," line more.head?
      match more.drop 1 with
      | [] => return .predicate word args comparator number (some upper) line
      | extra :: _ => .error ⟨.inputAfterComparison, extra.span⟩
    | extra :: _ => .error ⟨.inputAfterComparison, extra.span⟩
  | .op o s :: _ => .error ⟨.unexpectedOperator o.text, s⟩
  | [] => .error ⟨.expectedNumberAfter "", line⟩

def shorthand (key : String) (value : Value) : Statement := .field key false [] value value.span

/-- The line `axis id ["Name"] low -> high ["description"]`, a short form of a block. -/
def ofAxisLine (args : List Piece) (line : Span) : Except SyntaxError Statement := do
  let (before, after) ← Piece.splitAtArrow false args
  let (id, name, low) ← match before with
    | [id, low] => .ok (id, none, low)
    | [id, name, low] => .ok (id, some name, low)
    | _ => .error ⟨.axisUsage, line⟩
  let (high, description) ← match after with
    | [high] => .ok (high, none)
    | [high, description] => .ok (high, some description)
    | _ => .error ⟨.axisUsage, line⟩
  let body := (name.map (shorthand "name")).toList ++
    [shorthand "lowTag" low, shorthand "highTag" high] ++
    (description.map (shorthand "description")).toList
  return .block "axis" false [id] body line

def asArray : Value → Value
  | .array items s => .array items s
  | v => .array [v] v.span

/-- The line `relationship_kind kind source -> target ["description"]`, a short form of a block. -/
def ofRelationshipKindLine (args : List Piece) (line : Span) : Except SyntaxError Statement := do
  let (before, after) ← Piece.splitAtArrow false args
  match before, after with
  | [kind, source], [target] =>
    return .block "relationship_kind" false [kind]
      [shorthand "srcKinds" (asArray source), shorthand "dstKinds" (asArray target)] line
  | [kind, source], [target, description] =>
    return .block "relationship_kind" false [kind]
      [shorthand "srcKinds" (asArray source), shorthand "dstKinds" (asArray target),
        shorthand "description" description] line
  | _, _ => .error ⟨.relationshipKindUsage, line⟩

/-- A line whose key has no shape of its own: a bare word, an `in` list, a comparison or a field. -/
def ofKeyed (key : String) (quoted : Bool) (keyValue : Value) (args : List Piece) (line : Span) :
    Except SyntaxError Statement :=
  match args with
  | [] => .ok (.bare keyValue line)
  | first :: more =>
    if (match first with | .value v => v.isWord "in" | .op .. => false) then do
      ofItems (some key) (← Piece.values more) keyValue.span line
    else if args.any Piece.isComparator then ofPredicate key line [] args
    else do
      let values ← Piece.values args
      match values.getLast? with
      | some value => return .field key quoted values.dropLast value line
      | none => .error ⟨.expectedValue, line⟩

def ofLine (pieces : List Piece) (line : Span) : Except SyntaxError Statement :=
  match pieces with
  | [] => .error ⟨.expectedStatement, line⟩
  | .value (.name key s) :: args =>
    let hasArrow := args.any Piece.isArrow
    if key = "mutate" then ofMutate args line
    else if key = "from" then ofOrigin args line
    else if key = "in" then do ofItems none (← Piece.values args) s line
    else if relWords.contains key && hasArrow then ofRel key args line
    else if key = "axis" && hasArrow then ofAxisLine args line
    else if key = "relationship_kind" && hasArrow then ofRelationshipKindLine args line
    else ofKeyed key false (.name key s) args line
  | [.value v] => .ok (.bare v line)
  | .value (.str key s) :: args => ofKeyed key true (.str key s) args line
  | other :: _ => .error ⟨.expectedKeyword, other.span⟩

def blockHeader (pieces : List Piece) (header : Span) :
    Except SyntaxError (String × Bool × List Value) := do
  let (name, quoted) ← match pieces with
    | .value (.name name s) :: _ =>
      if ["in", "from", "mutate", "rel", "relationship"].contains name then
        .error ⟨.notABlockName name, s⟩
      else .ok (name, false)
    | .value (.str name _) :: _ => .ok (name, true)
    | other :: _ => .error ⟨.expectedBlockName, other.span⟩
    | [] => .error ⟨.expectedBlockName, header⟩
  return (name, quoted, ← Piece.valuesOr .operatorInBlockHeader (pieces.drop 1))

end Statement

end Worldbook
