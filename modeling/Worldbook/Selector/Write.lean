import Worldbook.Selector.Compile
import Worldbook.Variable.Order
import Worldbook.Written.Forms

/-!
# Writing selections and variables

Fields of a selection that have no statement of their own are written with a quoted key.
-/

namespace Worldbook.Selector

open Written

def saturation? (v : Json) : Option Node := do
  let o ← v.object?
  if !o.hasOnly ["direction", "relationshipKind", "fromKind", "maxCount"] then none
  let direction ← text? o "direction"
  if !directions.contains direction then none
  let kind ← text? o "relationshipKind"
  let fromKind ← optionalText? o "fromKind"
  let most ← number? o "maxCount"
  return .line ([direction, string kind] ++ (fromKind.map string).toList ++ ["<=", most])

/-- Where the candidates come from; `none` when it cannot be written so. -/
def origin? : Json → Option Node
  | .str s => some (.line ["from", if s = "graph" then s else reference s])
  | .obj o => do
    if !Record.hasOnly o ["relatedTo", "relationshipKind", "direction"] then none
    return .line ["from", reference (← text? o "relatedTo"), "via",
      string (← text? o "relationshipKind"), string (← text? o "direction")]
  | _ => none

def pair? (key : String) (v : Json) : Option (List String) :=
  match v with
  | .str s =>
    if key = "pickStrategy" then some ["pick", string s]
    else if ["kind", "subtype", "status"].contains key then some [key, string s]
    else none
  | .arr items =>
    if ["kinds", "subtypes", "statuses"].contains key && items.all (·.string?.isSome) then
      some [key, value v]
    else none
  | .num n => if key = "maxResults" then some ["max", number n] else none
  | _ => none

def field? (plain : Node) (key : String) (v : Json) (forms : Forms) : Option (List Node) :=
  match pair? key v with
  | some words => some [.line words]
  | none =>
    match key, v with
    | "saturationLimits", .arr limits => limits.mapM saturation?
    | "filters", .arr _ | "preferFilters", .arr _ =>
      forms.filters.map fun list => [.block [key] list]
    | "from", .str _ | "from", .obj _ => (origin? v).map ([·])
    | _, _ => some [plain]

/-! ## Variables -/

def pairs? : Record → Option (List String)
  | [] => some []
  | (key, v) :: rest => do return (← pair? key v) ++ (← pairs? rest)

def required? (o : Record) : Option (List String) :=
  match o.get? "required" with
  | none => some []
  | some (.bool b) => some ["required", value (.bool b)]
  | some _ => none

def binding? (o : Record) (forms : String → Forms) (name : String) : Option Node := do
  let name ← alias? name
  if !o.hasOnly ["select", "required"] then none
  let select ← (o.get? "select").bind Json.object?
  let required ← required? o
  match pairs? select with
  | some words => return .line (["let", name] ++ words ++ required)
  | none =>
    let flag := if required.isEmpty then [] else [Node.line required]
    return .block ["let", name] (.block ["select"] (← (forms "select").selection) :: flag)

/-- The `let` statements of variables, each after those it mentions. -/
def bindings? (o : Record) (forms : String → Forms) : Option (List Node) :=
  (Variables.order o).mapM fun name => (forms name).binding name

end Worldbook.Selector
