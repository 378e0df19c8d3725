import Worldbook.Source.Value

/-!
# Statements

A source text is a list of statements; a block holds statements of its own. Each of the small
languages of a body (conditions, filters, mutations, ...) reads the same eight shapes.
-/

namespace Worldbook

inductive Comparator where
  | ge | gt | le | lt | eq
deriving DecidableEq, Repr

def Comparator.text : Comparator → String
  | ge => ">="
  | gt => ">"
  | le => "<="
  | lt => "<"
  | eq => "=="

inductive Change where
  | add | subtract
deriving DecidableEq, Repr

def Change.text : Change → String
  | add => "+="
  | subtract => "-="

inductive Statement where
  /-- A field `key label* value`. A quoted key is always a plain field. -/
  | field (key : String) (quoted : Bool) (labels : List Value) (value : Value) (span : Span)
  /-- A block `name label* do ... end`. -/
  | block (name : String) (quoted : Bool) (labels : List Value) (body : List Statement)
      (span : Span)
  /-- A relationship `rel [label] kind source -> target value*`. -/
  | rel (key : String) (label : Option Value) (kind source target : Value) (values : List Value)
      (span : Span)
  /-- A change of an amount, `mutate target id += n`. -/
  | mutate (target : String) (id : Value) (change : Change) (amount : Number) (span : Span)
  /-- A comparison `word arg* >= n`, with a second number for a range. -/
  | predicate (word : String) (args : List Value) (comparator : Comparator) (number : Number)
      (upper : Option Number) (span : Span)
  /-- A choice `key in item*`, or `in item*` without a key. -/
  | within (key : Option String) (items : List Value) (span : Span)
  /-- A line `from source`, or `from source via relationship direction`. -/
  | origin (source : Value) (via : Option (Value × Value)) (span : Span)
  /-- A single value. -/
  | bare (value : Value) (span : Span)

namespace Statement

def span : Statement → Span
  | field _ _ _ _ s | block _ _ _ _ s | rel _ _ _ _ _ _ s | mutate _ _ _ _ s
  | predicate _ _ _ _ _ s | within _ _ s | origin _ _ s | bare _ s => s

/-- The leading word, by which a language knows the statement. -/
def keyword? : Statement → Option String
  | field key .. => some key
  | block name .. => some name
  | rel key .. => some key
  | mutate .. => some "mutate"
  | predicate word .. => some word
  | within key .. => some (key.getD "in")
  | origin .. => some "from"
  | bare value _ => value.name?

def keyword (s : Statement) : String := s.keyword?.getD ""

def isQuoted : Statement → Bool
  | field _ quoted .. | block _ quoted .. => quoted
  | _ => false

/-- The leading word, unless it was written as a string. -/
def plainKeyword? (s : Statement) : Option String :=
  if s.isQuoted then none else s.keyword?

def positional : Statement → List Value
  | field _ _ labels value _ => labels ++ [value]
  | block _ _ labels _ _ => labels
  | predicate _ args .. => args
  | within _ items _ => items
  | _ => []

def isBlock : Statement → Bool
  | block .. => true
  | _ => false

def comparison? : Statement → Option (Comparator × Number × Option Number)
  | predicate _ _ comparator number upper _ => some (comparator, number, upper)
  | _ => none

def describe : Statement → String
  | field .. => "attribute"
  | block .. => "block"
  | rel .. => "relationship statement"
  | mutate .. => "mutate statement"
  | predicate .. => "comparison"
  | within .. => "'in' statement"
  | origin .. => "'from' statement"
  | bare .. => "bare value"

end Statement

/-- Words that are never written bare where a key or a name stands. -/
def reservedWords : List String :=
  ["axis", "tag", "relationship_kind", "seed_relationship", "rel", "relationship", "mutate", "in",
    "from", "create", "var", "variable", "let", "applicability", "entity_kind", "strategy", "do",
    "end", "true", "false", "null"]

def isReserved (word : String) : Bool := reservedWords.contains word

def relWords : List String :=
  ["rel", "relationship", "seed_relationship", "create_relationship"]

end Worldbook
