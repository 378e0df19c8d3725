import Worldbook.Compile.Context

/-!
# Arguments of a statement

The arguments not yet read, with the word that messages name and the span of the whole statement.
-/

namespace Worldbook

structure Args where
  word : String
  span : Span
  rest : List Value

namespace Args

open CompileM

def of (s : Statement) : Args := ⟨s.keyword, s.span, s.positional⟩

/-- Whether a marker word comes next, and the arguments after it if so. -/
def marker (a : Args) (word : String) : Bool × Args :=
  match a.rest with
  | v :: rest => if v.isWord word then (true, { a with rest := rest }) else (false, a)
  | [] => (false, a)

def value (a : Args) (what : String) : Attempt (Value × Args) :=
  match a.rest with
  | v :: rest => return (v, { a with rest := rest })
  | [] => reject (.missingArgument a.word what) a.span

def text (a : Args) (what : String) : Attempt (String × Args) := do
  let (v, a) ← a.value what
  match v.text? with
  | some text => return (text, a)
  | none => reject (.wrongArgument a.word what v.describe) v.span

def number (a : Args) (what : String) : Attempt (Number × Args) := do
  let (v, a) ← a.value what
  match v.number? with
  | some n => return (n, a)
  | none => reject (.wrongArgument a.word what v.describe) v.span

def value? (a : Args) : Option Value × Args := (a.rest.head?, { a with rest := a.rest.drop 1 })

def text? (a : Args) : Option String × Args :=
  match a.rest.head?.bind Value.text? with
  | some text => (some text, { a with rest := a.rest.drop 1 })
  | none => (none, a)

/-- All arguments, the items of arrays standing for the arrays. -/
def flat (a : Args) : List Value :=
  a.rest.flatMap fun
    | .array items _ => items
    | v => [v]

def finish (a : Args) : Attempt Unit :=
  match a.rest with
  | [] => return ()
  | extra :: _ => reject (.extraArgument a.word extra.describe) extra.span

def markedText (a : Args) (word what : String) : Attempt (Option String × Args) := do
  match a.marker word with
  | (true, a) =>
    let (text, a) ← a.text what
    return (some text, a)
  | (false, a) => return (none, a)

def markedValue (a : Args) (word what : String) : Attempt (Option Value × Args) := do
  match a.marker word with
  | (true, a) =>
    let (v, a) ← a.value what
    return (some v, a)
  | (false, a) => return (none, a)

end Args

def textField (key text : String) : String × Json := (key, .str text)

def optionalText (key : String) (text : Option String) : Record := (text.map (textField key)).toList

open CompileM in
/-- The inclusive bounds of a comparison. -/
def boundFields (comparison : Comparator × Number × Option Number) (span : Span) : Attempt Record :=
  let (comparator, n, upper) := comparison
  if upper.isSome && comparator != .eq then reject (.rangeComparator comparator.text) span
  else match comparator with
    | .ge => return [("min", .ofNumber n)]
    | .le => return [("max", .ofNumber n)]
    | .eq => return [("min", .ofNumber n), ("max", .ofNumber (upper.getD n))]
    | .gt | .lt => reject (.strictComparator comparator.text) span

def optionalBounds (s : Statement) : Attempt Record :=
  match s.comparison? with
  | some comparison => boundFields comparison s.span
  | none => return []

open CompileM in
def requiredBounds (s : Statement) : Attempt Record :=
  match s.comparison? with
  | some comparison => boundFields comparison s.span
  | none => reject (.missingArgument s.keyword "a comparison such as '>= 5'") s.span

end Worldbook
