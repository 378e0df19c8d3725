import Worldbook.Number.Basic
import Worldbook.Source.Span

/-!
# Values in source text

What may stand as an argument, a label, an array item or an object member. A bare name
(`npc`, `x.prominence`, `npc:hero`, `$target`) is kept apart from a string: only names are
looked up among bindings.
-/

namespace Worldbook

inductive Value where
  | str (text : String) (span : Span)
  | num (number : Number) (span : Span)
  | bool (flag : Bool) (span : Span)
  | null (span : Span)
  | name (text : String) (span : Span)
  | array (items : List Value) (span : Span)
  | object (members : List (String × Value)) (span : Span)
  | call (name : String) (args : List Value) (span : Span)

namespace Value

def span : Value → Span
  | str _ s | num _ s | bool _ s | null s | name _ s | array _ s | object _ s | call _ _ s => s

def name? : Value → Option String
  | name text _ => some text
  | _ => none

def text? : Value → Option String
  | name text _ | str text _ => some text
  | _ => none

def number? : Value → Option Number
  | num n _ => some n
  | _ => none

def bool? : Value → Option Bool
  | bool b _ => some b
  | _ => none

/-- The value is this bare word; a string never is. -/
def isWord (v : Value) (word : String) : Bool := v.name? == some word

def describe : Value → String
  | str .. => "string"
  | num .. => "number"
  | bool .. => "boolean"
  | null .. => "null"
  | name .. => "identifier"
  | array .. => "array"
  | object .. => "object"
  | call .. => "call"

end Value

end Worldbook
