import Worldbook.Json.Basic
import Worldbook.Scope
import Worldbook.Source.Token

/-!
# Values of a configuration

A source value stands for a JSON value. Where a reference may stand, bare names are first looked
up among the bindings; strings never are.
-/

namespace Worldbook.Value

mutual

/-- The value as written, names being strings. -/
def literal : Value → Json
  | .str text _ => .str text
  | .num n _ => .ofNumber n
  | .bool b _ => .bool b
  | .null _ => .null
  | .name text _ => .str text
  | .array items _ => .arr (literals items)
  | .object members _ => .obj (Record.ofPairs (literalMembers members))
  | .call callee args _ => .obj [("call", .str callee), ("args", .arr (literals args))]

def literals : List Value → List Json
  | [] => []
  | v :: rest => literal v :: literals rest

def literalMembers : List (String × Value) → List (String × Json)
  | [] => []
  | (key, v) :: rest => (key, literal v) :: literalMembers rest

end

mutual

/-- The value where a reference may stand: names, also in arrays, go through the scope. -/
def resolved (scope : Scope) : Value → Json
  | .name text _ => .str (scope.resolve text)
  | .array items _ => .arr (resolvedItems scope items)
  | v => v.literal

def resolvedItems (scope : Scope) : List Value → List Json
  | [] => []
  | v :: rest => resolved scope v :: resolvedItems scope rest

end

/-- Letters, digits and the underscore. The two signs `×` and `÷` lie among the Latin letters and
are none. -/
def isKeyChar (c : Char) : Bool := isNameChar c && c != '×' && c != '÷'

/-- The text of a plain word, which may name a field: no `$` and no joined segments. -/
def key? (v : Value) : Option String := v.name?.filter (·.toList.all isKeyChar)

/-- The values read as `key value` pairs, if every key is a plain word. -/
def pairs? : List Value → Option (List (String × Value))
  | [] => some []
  | [_] => none
  | key :: value :: rest => do
    let word ← key.key?
    let more ← pairs? rest
    return (word, value) :: more

/-- The value of a field: `key v` is `v`, `key a 1 b 2` is an object, any other list of values an
array. -/
def fieldLiteral (labels : List Value) (value : Value) : Json :=
  if labels.isEmpty then value.literal
  else match pairs? (labels ++ [value]) with
    | some pairs => .obj (Record.ofPairs (literalMembers pairs))
    | none => .arr (literals (labels ++ [value]))

def referenceKeys : List String := ["entity", "src", "dst", "with", "relatedTo", "valueFrom"]

def underKey (scope : Scope) (key : String) (v : Value) : Json :=
  if referenceKeys.contains key then v.resolved scope else v.literal

end Worldbook.Value
