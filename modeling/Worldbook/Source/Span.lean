/-!
# Positions and spans

A position counts lines, code points within the line, and bytes of UTF-8 from the start of
the text. A span is a stretch of one file; it only ever feeds messages.
-/

namespace Worldbook

abbrev FileId := Nat

/-- A place in a text, all counts from zero. -/
structure Position where
  line : Nat
  column : Nat
  offset : Nat
deriving DecidableEq, Repr, Inhabited

namespace Position

def origin : Position := ⟨0, 0, 0⟩

def advance (p : Position) (c : Char) : Position :=
  if c = '\n' then ⟨p.line + 1, 0, p.offset + 1⟩
  else ⟨p.line, p.column + 1, p.offset + c.utf8Size⟩

def after (p : Position) (cs : List Char) : Position :=
  cs.foldl advance p

@[simp] theorem after_nil (p : Position) : p.after [] = p := rfl

@[simp] theorem after_cons (p : Position) (c : Char) (cs : List Char) :
    p.after (c :: cs) = (p.advance c).after cs := rfl

theorem after_append (p : Position) (cs ds : List Char) :
    p.after (cs ++ ds) = (p.after cs).after ds := List.foldl_append

def precedes (p q : Position) : Bool :=
  p.line < q.line ||
    (p.line == q.line && (p.column < q.column || (p.column == q.column && p.offset ≤ q.offset)))

def earlier (p q : Position) : Position := if p.precedes q then p else q

def later (p q : Position) : Position := if p.precedes q then q else p

end Position

/-- A stretch of one file, the end excluded. -/
structure Span where
  file : FileId
  start : Position
  stop : Position
deriving DecidableEq, Repr, Inhabited

namespace Span

def point (file : FileId) (place : Position) : Span := ⟨file, place, place⟩

/-- The smallest span over both, in the first one's file. -/
def join (a b : Span) : Span := ⟨a.file, a.start.earlier b.start, a.stop.later b.stop⟩

end Span

end Worldbook
