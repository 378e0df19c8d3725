import Worldbook.Filter.Compile

/-!
# Compiling path assertions

The body of a `graph_path` block: a check, the steps of the path, and optionally a count and
constraints on the entities at its end.
-/

namespace Worldbook.Path

open CompileM

def checks : List String := ["exists", "not_exists", "count"]

/-! ## Steps -/

def leadingAlias (args : Args) : Option String × Args :=
  match args.rest with
  | .name token _ :: rest =>
    if Scope.hasSigil token then (some token, { args with rest := rest }) else (none, args)
  | _ => (none, args)

/-- A step, `step [$alias] [via] kind direction targetKind targetSubtype [status]`, with details in
a body. The alias is bound once the arguments are known to be right. -/
def step (s : Statement) (body : Nested) : Attempt Json := do
  let (name, args) := leadingAlias (Args.of s)
  let (_, args) := args.marker "via"
  let (kind, args) ← args.text "a relationship kind"
  let (direction, args) ← args.text "a direction"
  let (targetKind, args) ← args.text "a target kind"
  let (targetSubtype, args) ← args.text "a target subtype"
  let (status, args) := args.text?
  args.finish
  let bound ← aliasField name
  let record ← body.step
    ([textField "via" kind, textField "direction" direction, textField "targetKind" targetKind,
      textField "targetSubtype" targetSubtype] ++ optionalText "targetStatus" status ++ bound)
  return .obj record

def stepStatus (s : Statement) (r : Record) : Attempt Record := do
  let (status, args) ← (Args.of s).text "a status"
  args.finish
  setField "targetStatus" (.str status) s.span r

def stepPart : Child → Record → CompileM Record
  | (s@(.field "status" false ..), _), r => orElseKeep (stepStatus s r) r
  | (.block "filters" false _ _ span, nested), r => do
    setField "filters" (.arr (← nested.filters)) span r
  | (s, _), r => do
    unknownKeyword "path step statement" s
    return r

/-! ## Constraints -/

def typed (name : String) (fields : Record) : Json := .obj (textField "type" name :: fields)

def membership (name : String) (s : Statement) : Attempt Json := do
  let (set, args) ← (Args.of s).value "a set reference"
  let set ← reference set
  args.finish
  return typed name [("set", set)]

def equality (field : String) (s : Statement) : Attempt Json := do
  let (value, args) ← (Args.of s).text "a value"
  args.finish
  return typed (field ++ "_equals") [textField field value]

def relationship (name : String) (s : Statement) : Attempt Json :=
  return typed name (← Filter.relationshipFields s)

def constraint : Statement → Nested → Attempt Json
  | .bare (.name "not_self" _) _, _ => return typed "not_self" []
  | s@(.within none ..), _ => membership "in" s
  | s@(.field "not_in" false ..), _ => membership "not_in" s
  | s@(.field "has_relationship" false ..), _ => relationship "has_relationship" s
  | s@(.field "lacks_relationship" false ..), _ => relationship "lacks_relationship" s
  | s@(.field "kind" false ..), _ => equality "kind" s
  | s@(.field "subtype" false ..), _ => equality "subtype" s
  | .block "constraint" false [] _ _, body => return .obj (← body.fields [])
  | s, _ => do
    unknownKeyword "path constraint" s
    failure

def constraints (body : List Child) : CompileM (List Json) :=
  collect (fun (s, nested) => constraint s nested) body

/-! ## Assertions -/

structure Draft where
  record : Record
  steps : List Json

def check (s : Statement) (r : Record) : Attempt Record := do
  let (check, args) ← (Args.of s).text "exists, not_exists or count"
  if !checks.contains check then reject (.unknownCheck check) s.span
  args.finish
  setField "check" (.str check) s.span r

def count (s : Statement) (r : Record) : Attempt Record := do
  match s.comparison? with
  | some comparison =>
    let bounds ← boundFields comparison s.span
    setField "count" (.obj bounds) s.span r
  | none => reject (.missingArgument "count" "a comparison such as '>= 2'") s.span

def part (c : Child) (d : Draft) : CompileM Draft := do
  let (s, nested) := c
  let word := s.plainKeyword?
  if word = some "check" && !s.isBlock then
    return { d with record := ← orElseKeep (check s d.record) d.record }
  else if word = some "step" then
    let found ← (step s nested).run
    return { d with steps := d.steps ++ found.toList }
  else if word = some "count" then
    return { d with record := ← orElseKeep (count s d.record) d.record }
  else if word = some "where" && s.isBlock then
    let found ← nested.constraints
    return { d with record := ← setField "where" (.arr found) s.span d.record }
  else
    unknownKeyword "graph path statement" s
    return d

/-- The assertion of a body; a missing check is reported at the block. -/
def compile (body : List Child) (block : Span) : CompileM Record := do
  let d ← thread part body ⟨[], []⟩
  if !d.record.has "check" then report .missingCheck block
  return d.record ++ [("path", .arr d.steps)]

end Worldbook.Path
