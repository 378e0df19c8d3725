import Worldbook.Condition.Write
import Worldbook.Mutation.Write
import Worldbook.Path.Write
import Worldbook.Selector.Write

/-!
# Writing record bodies

Every object can be written field by field, so a record outside the languages is never lost: it
becomes a block of its fields, with keys quoted where a bare key would be read as something else.

The languages nest in each other. `Json.forms` ties them together: it builds the forms of a value
from the forms of the values inside it.
-/

namespace Worldbook.Body

open Written

/-- Keys whose block is read in a language of its own. -/
def languageKeys : List String :=
  ["applicability", "conditions", "filters", "preferFilters", "mutations", "effects",
    "stateUpdates", "selection", "actor", "target", "variables", "creation", "relationships"]

def relationships? (items : List Json) : Option (List Node) :=
  items.mapM fun item => do relationship? "rel" (← item.object?) []

def language? (key : String) (v : Json) (forms : Forms) : Option (List Node) :=
  let block (body : Option (List Node)) : Option (List Node) := body.map fun b => [.block [key] b]
  match key, v with
  | "applicability", _ | "conditions", _ => block forms.conditions
  | "filters", _ | "preferFilters", _ => block forms.filters
  | "mutations", _ | "effects", _ | "stateUpdates", _ => block forms.mutations
  | "selection", _ | "actor", _ | "target", _ => block forms.selection
  | "variables", .obj (_ :: _) => forms.bindings
  | "creation", .arr (_ :: _) => forms.creations
  | "relationships", .arr (first :: rest) => relationships? (first :: rest)
  | _, _ => none

/-- A key in front of a field that is written plainly. -/
def plainKey (key : String) : String :=
  if isPlainKey key && !languageKeys.contains key then key else quote key

/-- A plain field: `key value`, `key a 1 b 2`, or a block of fields. -/
def plain (name key : String) (v : Json) (forms : Forms) : Node :=
  let oneValue := Node.line [name, fieldValue key v]
  match v with
  | .obj (first :: rest) =>
    if (call? (first :: rest)).isSome then oneValue
    else match pairs? (first :: rest) with
      | some words => .line (name :: words)
      | none => .block [name] (forms.body [])
  | _ => oneValue

def statements (key : String) (v : Json) (forms : Forms) : List Node :=
  (language? key v forms).getD [plain (plainKey key) key v forms]

/-- A new entity, `create $x key value ...` or `create $x do ... end`; `body` writes the fields. -/
def creation? (o : Record) (body : List Node) : Option Node := do
  let reference ← (text? o "entityRef").bind alias?
  match pairs? (o.filter (·.1 != "entityRef")) with
  | some words => return .line (["create", reference] ++ words)
  | none => return .block ["create", reference] body

def selection? (members : Members) : Option (List Node) := do
  let parts ← members.mapM fun (key, v, forms) =>
    Selector.field? (plain (quote key) key v forms) key v forms
  return parts.flatten

end Worldbook.Body

namespace Worldbook

def Forms.ofMembers (members : Members) : Forms :=
  let o := members.record
  let fields := members.map fun (key, v, forms) => (key, Body.statements key v forms)
  let whole : Forms := { Forms.scalar with fields := fields }
  let orEscaped (word : String) (written : Option Node) : Option Node :=
    some (written.getD (.block [word] (whole.body [])))
  { whole with
    condition := orEscaped "condition" (Condition.write? o members.forms)
    filter := orEscaped "filter" (Filter.write? o members.forms)
    mutation := orEscaped "mutation" (Mutation.write? o members.forms)
    constraint := orEscaped "constraint" (Path.constraint? o)
    step := Path.step? o members.forms
    creation := Body.creation? o (whole.body ["entityRef"])
    binding := Selector.binding? o members.forms
    selection := Body.selection? members
    path := Path.write? o members.forms
    bindings := Selector.bindings? o members.forms }

mutual

def Json.forms : Json → Forms
  | .arr items => .ofItems (Json.formsOfItems items)
  | .obj members => .ofMembers (Json.formsOfMembers members)
  | _ => .scalar

def Json.formsOfItems : List Json → List Forms
  | [] => []
  | v :: rest => v.forms :: Json.formsOfItems rest

def Json.formsOfMembers : List (String × Json) → Members
  | [] => []
  | (key, v) :: rest => (key, v, v.forms) :: Json.formsOfMembers rest

end

end Worldbook
