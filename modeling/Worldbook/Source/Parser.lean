import Worldbook.Source.Line
import Worldbook.Source.Token

/-!
# Reading a text

Values nest in brackets and statements nest in blocks. Both readers recurse on a bound that is
linear in the text left, since every round takes at least one character.
-/

namespace Worldbook

namespace Cursor

/-! ## Values -/

mutual

def value : Nat → Cursor → Except SyntaxError (Value × Cursor)
  | 0, c => c.fail .exhausted
  | fuel + 1, c =>
    match c.rest with
    | [] => c.fail .expectedValue
    | '"' :: _ => do
      let (text, d) ← c.scanAnyString
      return (.str text (c.spanTo d), d)
    | '[' :: _ => do
      let (items, d) ← sequence fuel '[' ']' c (c.past ['['])
      return (.array items (c.spanTo d), d)
    | '\x7b' :: _ => do
      let (entries, d) ← members fuel c (c.past ['\x7b'])
      return (.object entries (c.spanTo d), d)
    | first :: _ =>
      if first = '-' || first.isDigit then do
        let (number, d) ← c.scanNumber
        return (.num number (c.spanTo d), d)
      else if first = '$' || isNameStart first then do
        let (name, d) ← c.scanName
        let span := c.spanTo d
        if name = "true" then return (.bool true span, d)
        else if name = "false" then return (.bool false span, d)
        else if name = "null" then return (.null span, d)
        else if d.startsWith ['('] then
          let (args, e) ← sequence fuel '(' ')' c (d.past ['('])
          return (.call name args (c.spanTo e), e)
        else return (.name name span, d)
      else c.fail (.unexpectedChar first)

/-- The values up to the closing bracket, with blanks and single commas between them. -/
def sequence : Nat → Char → Char → Cursor → Cursor → Except SyntaxError (List Value × Cursor)
  | 0, _, _, _, c => c.fail .exhausted
  | fuel + 1, opening, closing, start, c =>
    let d := c.skipBlanks
    match d.rest with
    | [] => start.failTo d (.unclosed opening)
    | first :: _ =>
      if first = closing then .ok ([], d.past [first])
      else do
        let (item, e) ← value fuel d
        let (items, rest) ← sequence fuel opening closing start (e.skipBlanks.eat ',')
        return (item :: items, rest)

def members : Nat → Cursor → Cursor → Except SyntaxError (List (String × Value) × Cursor)
  | 0, _, c => c.fail .exhausted
  | fuel + 1, start, c =>
    let d := c.skipBlanks
    match d.rest with
    | [] => start.failTo d (.unclosed '\x7b')
    | '\x7d' :: _ => .ok ([], d.past ['\x7d'])
    | _ :: _ => do
      let (key, e) ← d.scanKey
      let e := e.skipBlanks
      if e.startsWith [':'] then
        let (item, e) ← value fuel (e.past [':']).skipBlanks
        let (entries, rest) ← members fuel start (e.skipBlanks.eat ',')
        return ((key, item) :: entries, rest)
      else e.fail (.expectedChar ':')

end

/-- One value, with as many rounds as the text can ask for. -/
def scanValue (c : Cursor) : Except SyntaxError (Value × Cursor) :=
  c.value (2 * c.rest.length + 2)

/-! ## Lines -/

def operator? : List Char → Option (Operator × List Char)
  | '>' :: '=' :: _ => some (.compare .ge, ['>', '='])
  | '>' :: _ => some (.compare .gt, ['>'])
  | '<' :: '=' :: _ => some (.compare .le, ['<', '='])
  | '<' :: _ => some (.compare .lt, ['<'])
  | '=' :: '=' :: _ => some (.compare .eq, ['=', '='])
  | '+' :: '=' :: _ => some (.change .add, ['+', '='])
  | '-' :: '=' :: _ => some (.change .subtract, ['-', '='])
  | '-' :: '>' :: _ => some (.arrow, ['-', '>'])
  | ',' :: _ => some (.comma, [','])
  | _ => none

def scanPiece (c : Cursor) : Except SyntaxError (Piece × Cursor) := do
  match operator? c.rest with
  | some (operator, text) =>
    let d := c.past text
    return (.op operator (c.spanTo d), d)
  | none =>
    if c.startsWith ['='] then c.fail .unexpectedEquals
    else
      let (v, d) ← c.scanValue
      return (.value v, d)

structure Line where
  pieces : List Piece
  /-- The line ends in `do`. -/
  opensBlock : Bool
  /-- The position after the last piece. -/
  stop : Position

def atLineEnd (c : Cursor) : Bool :=
  match c.rest with
  | [] => true
  | first :: _ => first = '\n' || first = '\r' || first = ';' || c.atComment || c.atWord "end"

/-- The pieces from a cursor to the end of the line, `stop` being where the last one ended. -/
def linePieces : Nat → Position → Cursor → Except SyntaxError (Line × Cursor)
  | 0, _, c => c.fail .exhausted
  | fuel + 1, stop, c =>
    let d := c.skipInlineBlanks
    if d.atWord "do" then .ok (⟨[], true, stop⟩, d.past "do".toList)
    else if d.atLineEnd then .ok (⟨[], false, stop⟩, d)
    else do
      let (piece, e) ← d.scanPiece
      let (line, rest) ← linePieces fuel e.pos e
      return ({ line with pieces := piece :: line.pieces }, rest)

def scanLine (c : Cursor) : Except SyntaxError (Line × Cursor) :=
  c.linePieces (c.rest.length + 1) c.pos

/-! ## Statements -/

mutual

def statement : Nat → Cursor → Except SyntaxError (Statement × Cursor)
  | 0, c => c.fail .exhausted
  | fuel + 1, c => do
    let (line, d) ← c.scanLine
    if line.opensBlock then
      let header := c.spanTo d
      let (name, quoted, labels) ← Statement.blockHeader line.pieces header
      let (body, e) ← statements fuel (some header) d
      return (.block name quoted labels body (c.spanTo e), e)
    else
      let s ← Statement.ofLine line.pieces ⟨c.file, c.pos, line.stop⟩
      return (s, d)

/-- The statements up to the end of the text, or up to the `end` of the block whose header is
given. -/
def statements : Nat → Option Span → Cursor → Except SyntaxError (List Statement × Cursor)
  | 0, _, c => c.fail .exhausted
  | fuel + 1, header, c =>
    let d := c.skipSeparators
    if d.rest.isEmpty then
      match header with
      | some s => .error ⟨.unclosedBlock, s⟩
      | none => .ok ([], d)
    else if d.atWord "end" then
      let e := d.past "end".toList
      match header with
      | some _ => .ok ([], e)
      | none => d.failTo e .unexpectedEnd
    else do
      let (first, e) ← statement fuel d
      let (more, rest) ← statements fuel header e
      return (first :: more, rest)

end

end Cursor

def parse (file : FileId) (text : String) : Except SyntaxError (List Statement) := do
  let c := Cursor.ofText file text
  let (found, _) ← c.statements (2 * c.rest.length + 2) none
  return found

end Worldbook
