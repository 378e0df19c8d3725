import Worldbook.Condition.Keyword
import Worldbook.Written.Forms

/-!
# Writing conditions

A record that its keyword can express is written in one statement; any other is not written here.
-/

namespace Worldbook.Condition

open Written

def relationshipWords? (o : Record) : Option (List String) := do
  let kind ← text? o "relationshipKind"
  let direction ← text? o "direction"
  let targetKind ← optionalText? o "targetKind"
  let targetStatus ← optionalText? o "targetStatus"
  if targetStatus.isSome && targetKind.isNone then none
  return [string kind, string direction] ++ (targetKind.map string).toList ++
    (targetStatus.map string).toList

def Keyword.words? (k : Keyword) (o : Record) : Option (List String) := do
  match k with
  | .pressure =>
    if !hasOnly o ["pressureId", "min", "max"] then none
    return string (← text? o "pressureId") :: (← requiredBounds? o)
  | .cap =>
    if !hasOnly o ["kind", "min", "max"] then none
    return "kind" :: string (← text? o "kind") :: (← requiredBounds? o)
  | .entityCount =>
    if !hasOnly o ["kind", "subtype", "status", "min", "max"] then none
    let kind ← text? o "kind"
    let subtype ← optionalText? o "subtype"
    let status ← optionalText? o "status"
    if status.isSome && subtype.isNone then none
    return "kind" :: string kind :: (subtype.map string).toList ++ (status.map string).toList ++
      (← bounds? o)
  | .tagExists | .lacksTag =>
    if !hasOnly o ["tag", "entity"] then none
    return string (← text? o "tag") :: ((← optionalText? o "entity").map reference).toList
  | .relationshipExists =>
    if !hasOnly o ["relationshipKind", "direction", "targetKind", "targetStatus"] then none
    relationshipWords? o
  | .relationshipCount =>
    if !hasOnly o
        ["relationshipKind", "direction", "targetKind", "targetStatus", "min", "max"] then none
    return (← relationshipWords? o) ++ (← bounds? o)
  | .randomChance =>
    if !hasOnly o ["chance"] then none
    return [← number? o "chance"]
  | .timeElapsed =>
    if !hasOnly o ["minTicks", "since"] then none
    return (← number? o "minTicks") :: marked "since" string (← optionalText? o "since")
  | .eraMatch =>
    if !hasOnly o ["eras"] then none
    return (← (o.get? "eras").bind strings?).map string
  | .prominence =>
    if !hasOnly o ["min", "max"] || o.length < 2 then none
    return marked "min" string (← optionalText? o "min") ++
      marked "max" string (← optionalText? o "max")
  | .entityExists =>
    if !hasOnly o ["entity"] then none
    return [reference (← text? o "entity")]
  | .notSelf =>
    if !hasOnly o [] then none
    return []
  | .and | .or | .graphPath | .generic => none

def Keyword.body? (k : Keyword) (o : Record) (forms : String → Forms) : Option (List Node) := do
  match k with
  | .and | .or =>
    if !hasOnly o ["conditions"] then none
    (forms "conditions").conditions
  | .graphPath =>
    if !hasOnly o ["assert"] then none
    (forms "assert").path
  | _ => none

def Keyword.statement? (k : Keyword) (o : Record) (forms : String → Forms) : Option Node := do
  if k.isBlock then return .block [k.word] (← k.body? o forms)
  else return .line (k.word :: (← k.words? o))

def write? (o : Record) (forms : String → Forms) : Option Node := do
  let k ← Keyword.ofWord? (← text? o "type")
  k.statement? o forms

end Worldbook.Condition
