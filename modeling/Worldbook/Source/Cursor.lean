import Worldbook.Source.SyntaxError

/-!
# Cursors

A cursor is the text still to be read with its position. Each step forward drops characters from
the front and moves the position past exactly those.
-/

namespace Worldbook

structure Cursor where
  file : FileId
  pos : Position
  rest : List Char

namespace Cursor

def ofText (file : FileId) (text : String) : Cursor := ⟨file, .origin, text.toList⟩

def past (c : Cursor) (cs : List Char) : Cursor :=
  { c with pos := c.pos.after cs, rest := c.rest.drop cs.length }

def spanTo (c d : Cursor) : Span := ⟨c.file, c.pos, d.pos⟩

def textTo (c d : Cursor) : String := String.ofList (c.rest.take (c.rest.length - d.rest.length))

def startsWith (c : Cursor) (cs : List Char) : Bool := cs.isPrefixOf c.rest

def eat (c : Cursor) (ch : Char) : Cursor :=
  if c.rest.head? = some ch then c.past [ch] else c

def takeWhile (c : Cursor) (p : Char → Bool) : List Char × Cursor :=
  let taken := c.rest.takeWhile p
  (taken, c.past taken)

def fail {α : Type} (c : Cursor) (cause : SyntaxError.Cause) : Except SyntaxError α :=
  .error ⟨cause, .point c.file c.pos⟩

def failTo {α : Type} (c d : Cursor) (cause : SyntaxError.Cause) : Except SyntaxError α :=
  .error ⟨cause, c.spanTo d⟩

/-! ## Blanks and comments -/

/-- The blank characters and comments at the front of a text. A comment runs from `#` or `//` to
the end of its line. -/
def trivia (isBlank : Char → Bool) : Bool → List Char → List Char
  | _, [] => []
  | true, c :: rest => c :: trivia isBlank (c != '\n') rest
  | false, c :: rest =>
    if isBlank c then c :: trivia isBlank false rest
    else if c = '#' ∨ (c = '/' ∧ rest.head? = some '/') then c :: trivia isBlank true rest
    else []

def atComment (c : Cursor) : Bool := c.startsWith ['#'] || c.startsWith ['/', '/']

def isInlineBlank (c : Char) : Bool := c = ' ' || c = '\t'

/-- Blanks inside brackets, where a line may end anywhere. -/
def isBlank (c : Char) : Bool := isInlineBlank c || c = '\r' || c = '\n'

/-- What may stand between two statements. -/
def isSeparator (c : Char) : Bool := isBlank c || c = ';'

def skipInlineBlanks (c : Cursor) : Cursor := c.past (c.rest.takeWhile isInlineBlank)

def skipBlanks (c : Cursor) : Cursor := c.past (trivia isBlank false c.rest)

def skipSeparators (c : Cursor) : Cursor := c.past (trivia isSeparator false c.rest)

end Cursor

end Worldbook
