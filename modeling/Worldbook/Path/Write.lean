import Worldbook.Filter.Write
import Worldbook.Path.Compile

/-!
# Writing path assertions
-/

namespace Worldbook.Path

open Written

def count? (o : Record) : Option (List Node) := do
  match o.get? "count" with
  | none => return []
  | some (.obj count) =>
    if !Record.hasOnly count ["min", "max"] then none
    return [.line ("count" :: (← requiredBounds? count))]
  | some _ => none

def where? (o : Record) (forms : String → Forms) : Option (List Node) := do
  if !o.has "where" then return []
  return [.block ["where"] (← (forms "where").constraints)]

def write? (o : Record) (forms : String → Forms) : Option (List Node) := do
  if !o.hasOnly ["check", "path", "count", "where"] then none
  let check ← text? o "check"
  if !checks.contains check then none
  let steps ← (forms "path").steps
  return .line ["check", check] :: steps ++ (← count? o) ++ (← where? o forms)

def step? (o : Record) (forms : String → Forms) : Option Node := do
  if !o.hasOnly
      ["via", "direction", "targetKind", "targetSubtype", "targetStatus", "as", "filters"] then
    none
  let bound ← aliasWord? o
  let kind ← text? o "via"
  let direction ← text? o "direction"
  let targetKind ← text? o "targetKind"
  let targetSubtype ← text? o "targetSubtype"
  let status ← optionalText? o "targetStatus"
  let words := "step" :: bound ++ ["via", string kind, string direction, string targetKind,
    string targetSubtype] ++ (status.map string).toList
  if o.has "filters" then
    return .block words [.block ["filters"] (← (forms "filters").filters)]
  else return .line words

def constraint? (o : Record) : Option Node := do
  let name ← text? o "type"
  match name with
  | "not_self" =>
    if !hasOnly o [] then none
    return .line [name]
  | "in" | "not_in" =>
    if !hasOnly o ["set"] then none
    return .line [name, reference (← text? o "set")]
  | "has_relationship" | "lacks_relationship" =>
    return .line (name :: (← Filter.relationshipWords? o))
  | "kind_equals" =>
    if !hasOnly o ["kind"] then none
    return .line ["kind", string (← text? o "kind")]
  | "subtype_equals" =>
    if !hasOnly o ["subtype"] then none
    return .line ["subtype", string (← text? o "subtype")]
  | _ => none

end Worldbook.Path
