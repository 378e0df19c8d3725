import Worldbook.Condition.Compile
import Worldbook.Mutation.Compile
import Worldbook.Path.Compile
import Worldbook.Selector.Compile

/-!
# Compiling record bodies

A record body is a list of fields. Some words open a list or a selection in a language of its own;
`create`, `let`, `rel` and `mutate` add to lists of the record.

The languages nest in each other. `Statement.nested` ties them together: it builds the readings of
a body from the readings of the bodies inside it.
-/

namespace Worldbook.Body

open CompileM

/-- A new entity, `create $x key value ...` or `create $x do ... end`. -/
def creation (s : Statement) (nested : Nested) (r : Record) : Attempt Record := do
  match s.positional with
  | [] => return r
  | first :: more =>
    let name ← rowText "create" first
    let entry := [textField "entityRef" (← declare name)]
    let entry ← if s.isBlock then do
        if let extra :: _ := more then report .creationLabels extra.span
        nested.fields entry
      else pairFields more s.span entry
    return r.extend "creation" [.obj entry]

def rejectLabels (name : String) (labels : List Value) : CompileM Unit :=
  match labels with
  | [] => return ()
  | first :: _ => report (.labelsRejected name) first.span

/-- A block that is a plain object, under its name or under a label below its name. -/
def objectBlock (name : String) (labels : List Value) (object : Json) (span : Span) (r : Record) :
    CompileM Record := do
  match labels with
  | [] => setField name object span r
  | [label] =>
    match label.text? with
    | some text => setEntry name text object (.duplicateEntry text name) span r
    | none =>
      report (.nestedLabelNotText label.describe) label.span
      return r
  | _ :: extra :: _ =>
    report (.tooManyNestedLabels name) extra.span
    return r

def block (s : Statement) (name : String) (labels : List Value) (nested : Nested) (r : Record) :
    CompileM Record := do
  if name = "applicability" || name = "conditions" then
    rejectLabels name labels
    return r.extend name (← nested.conditions)
  else if name = "filters" || name = "preferFilters" then
    rejectLabels name labels
    return r.extend name (← nested.filters)
  else if name = "mutations" || name = "effects" || name = "stateUpdates" then
    rejectLabels name labels
    return r.extend name (← nested.mutations)
  else if name = "selection" || name = "actor" || name = "target" then
    rejectLabels name labels
    setField name (.obj (← nested.selection [])) s.span r
  else if name = "let" || name = "var" || name = "variable" then
    orElseKeep (Selector.declaration s nested r) r
  else if name = "create" then orElseKeep (creation s nested r) r
  else objectBlock name labels (.obj (← nested.fields [])) s.span r

def field (s : Statement) (key : String) (labels : List Value) (value : Value) (nested : Nested)
    (r : Record) : CompileM Record := do
  if key = "create" then orElseKeep (creation s nested r) r
  else if key = "let" || key = "var" || key = "variable" then
    orElseKeep (Selector.declaration s nested r) r
  else if labels.isEmpty then setField key (← fieldValue key value) s.span r
  else setField key (Value.fieldLiteral labels value) s.span r

def part (c : Child) (r : Record) : CompileM Record := do
  let (s, nested) := c
  match s with
  | .field key true labels value span => setField key (Value.fieldLiteral labels value) span r
  | .field key false labels value _ => field s key labels value nested r
  | .block name true labels _ span => objectBlock name labels (.obj (← nested.fields [])) span r
  | .block name false labels _ _ => block s name labels nested r
  | .rel .. =>
    match ← (s.relationship false).run with
    | some entry => return r.extend "relationships" [.obj entry]
    | none => return r
  | .mutate .. =>
    match ← (Mutation.compile s nested).run with
    | some mutation => return r.extend "stateUpdates" [mutation]
    | none => return r
  | .predicate word .. =>
    report (.misplacedComparison word) s.span
    return r
  | .bare (.name name _) span =>
    if Scope.hasSigil name then
      report (.unexpectedInBody s.describe) span
      return r
    else setField name (.bool true) span r
  | _ =>
    report (.unexpectedInBody s.describe) s.span
    return r

def fields (body : List Child) (r : Record) : CompileM Record := thread part body r

end Worldbook.Body

namespace Worldbook

def Nested.ofBody (body : List Child) : Nested where
  fields := Body.fields body
  conditions := Condition.compileAll body
  filters := Filter.compileAll body
  mutations := Mutation.compileAll body
  constraints := Path.constraints body
  path := Path.compile body
  step := CompileM.thread Path.stepPart body
  selection := Selector.compile body
  binding := Selector.binding body
  branches := Mutation.branches body

mutual

/-- The readings of the body of a statement; a statement that is no block has an empty one. -/
def Statement.nested : Statement → Nested
  | .block _ _ _ body _ => .ofBody (Statement.children body)
  | _ => .ofBody []

def Statement.children : List Statement → List Child
  | [] => []
  | s :: rest => (s, s.nested) :: Statement.children rest

end

end Worldbook
