import Worldbook.Source.Cursor

/-!
# Tokens

Names, numbers and strings, read from the front of a cursor. Each scanner takes the longest text
that fits and stops.
-/

namespace Worldbook

/-! ## Names -/

/-- Letters that start a name: ASCII and the accented Latin blocks, and the underscore. -/
def isNameStart (c : Char) : Bool :=
  c.isAlpha || c = '_' || ('\u00c0' ≤ c && c ≤ '\u024f') || ('\u1e00' ≤ c && c ≤ '\u1eff')

def isNameChar (c : Char) : Bool := c.isDigit || isNameStart c

def isJoiner (c : Char) : Bool := c = '-' || c = '.' || c = ':'

/-- What continues a name: name characters, and single joiners in front of one. -/
def nameTail : List Char → List Char
  | [] => []
  | c :: rest =>
    if isNameChar c || (isJoiner c && rest.head?.any isNameChar) then c :: nameTail rest else []

def endsWord : List Char → Bool
  | [] => true
  | [c] => !isNameChar c
  | c :: d :: _ => !isNameChar c && !(isJoiner c && isNameChar d)

namespace Cursor

/-- The text continues with this word and the word ends there. -/
def atWord (c : Cursor) (word : String) : Bool :=
  c.startsWith word.toList && endsWord (c.rest.drop word.length)

/-- A name: an optional `$`, a first segment, and joined segments. -/
def scanName (c : Cursor) : Except SyntaxError (String × Cursor) :=
  let d := c.eat '$'
  match d.rest with
  | [] => d.fail .expectedName
  | first :: more =>
    if isNameStart first then
      let d' := d.past (first :: nameTail more)
      .ok (c.textTo d', d')
    else d.fail .expectedName

/-! ## Numbers -/

/-- A fraction: a point with a digit behind it. -/
def scanFraction (c : Cursor) : Option (List Char) × Cursor :=
  match c.rest with
  | '.' :: d :: _ =>
    if d.isDigit then
      let (digits, e) := (c.past ['.']).takeWhile Char.isDigit
      (some digits, e)
    else (none, c)
  | _ => (none, c)

/-- An exponent, which must have digits; `begin'` is where the number started. -/
def scanExponent (begin' c : Cursor) : Except SyntaxError (Option (Bool × List Char) × Cursor) :=
  match c.rest with
  | [] => .ok (none, c)
  | e :: _ =>
    if e = 'e' ∨ e = 'E' then
      let signed := c.past [e]
      let minus := signed.startsWith ['-']
      let unsigned := if minus then signed.eat '-' else signed.eat '+'
      let (digits, d) := unsigned.takeWhile Char.isDigit
      if digits.isEmpty then begin'.failTo d .expectedExponent else .ok (some (minus, digits), d)
    else .ok (none, c)

/-- A number. It may not run straight into name characters. -/
def scanNumber (c : Cursor) : Except SyntaxError (Number × Cursor) := do
  let (whole, afterWhole) := (c.eat '-').takeWhile Char.isDigit
  if whole.isEmpty then
    c.failTo afterWhole .expectedNumber
  else
    let (fraction, afterFraction) := afterWhole.scanFraction
    let (exponent, d) ← c.scanExponent afterFraction
    let (junk, afterJunk) := d.takeWhile isNameChar
    if junk.isEmpty then
      return (Numeral.toNumber ⟨c.startsWith ['-'], whole, fraction, exponent⟩, d)
    else
      c.failTo afterJunk (.invalidNumber (c.textTo afterJunk))

/-! ## Strings -/

def isHexDigit (c : Char) : Bool :=
  c.isDigit || ('a' ≤ c && c ≤ 'f') || ('A' ≤ c && c ≤ 'F')

def hexValue (c : Char) : Nat :=
  if c.isDigit then c.toNat - '0'.toNat
  else if c ≤ 'F' then c.toNat - 'A'.toNat + 10
  else c.toNat - 'a'.toNat + 10

/-- The character with a code point; surrogates have none. -/
def charOfCode (code : Nat) : Option Char :=
  if code.isValidChar then some (Char.ofNat code) else none

def unescape : Char → Char
  | 'b' => '\x08'
  | 'f' => '\x0c'
  | 'n' => '\n'
  | 'r' => '\r'
  | 't' => '\t'
  | c => c

def prepend (ch : Char) (r : Except SyntaxError (List Char × Cursor)) :
    Except SyntaxError (List Char × Cursor) :=
  r.map fun (cs, c) => (ch :: cs, c)

/-- The characters of a string from the position `p` up to its closing quotes, one or three. Only
a string in three quotes goes over the end of a line. -/
def stringBody (triple : Bool) (start : Cursor) (p : Position) :
    List Char → Except SyntaxError (List Char × Cursor)
  | [] =>
    .error ⟨if triple then .unterminatedTripleString else .unterminatedString,
      start.file, start.pos, p⟩
  | '"' :: rest =>
    if triple then
      match rest with
      | '"' :: '"' :: rest' => .ok ([], ⟨start.file, p.after ['"', '"', '"'], rest'⟩)
      | _ => prepend '"' (stringBody triple start (p.advance '"') rest)
    else .ok ([], ⟨start.file, p.advance '"', rest⟩)
  | '\\' :: rest =>
    let q := p.advance '\\'
    match rest with
    | [] => .error ⟨.unterminatedEscape, .point start.file q⟩
    | 'u' :: more =>
      match more with
      | a :: b :: c :: d :: rest' =>
        let hex := [a, b, c, d].takeWhile isHexDigit
        let q' := q.after ('u' :: hex)
        if hex.length < 4 then .error ⟨.expectedHexDigits, start.file, q, q'⟩
        else match charOfCode (hex.foldl (fun n h => 16 * n + hexValue h) 0) with
          | some ch => prepend ch (stringBody triple start q' rest')
          | none => .error ⟨.invalidCodePoint (String.ofList hex), start.file, q, q'⟩
      | short =>
        .error ⟨.expectedHexDigits, start.file, q, q.after ('u' :: short.takeWhile isHexDigit)⟩
    | e :: more => prepend (unescape e) (stringBody triple start (q.advance e) more)
  | ch :: rest =>
    if !triple && (ch = '\n' || ch = '\r') then
      .error ⟨.unterminatedString, start.file, start.pos, p⟩
    else prepend ch (stringBody triple start (p.advance ch) rest)

def scanString (c : Cursor) : Except SyntaxError (String × Cursor) := do
  let body := c.past ['"']
  let (chars, d) ← stringBody false c body.pos body.rest
  return (String.ofList chars, d)

def scanAnyString (c : Cursor) : Except SyntaxError (String × Cursor) := do
  if c.startsWith ['"', '"', '"'] then
    let body := c.past ['"', '"', '"']
    let (chars, d) ← stringBody true c body.pos body.rest
    return (String.ofList chars, d)
  else c.scanString

/-- The key of an object member: one segment of a name, or a string. -/
def scanKey (c : Cursor) : Except SyntaxError (String × Cursor) :=
  match c.rest with
  | [] => c.fail .expectedObjectKey
  | first :: _ =>
    if first = '"' then c.scanString
    else if isNameStart first then
      let (chars, d) := c.takeWhile isNameChar
      .ok (String.ofList chars, d)
    else c.fail .expectedObjectKey

end Cursor

end Worldbook
