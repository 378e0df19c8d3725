import Worldbook.Filter.Keyword
import Worldbook.Written.Forms

/-!
# Writing filters

A record that its keyword can express is written in one statement; any other is not written here.
-/

namespace Worldbook.Filter

open Written

def relationshipWords? (o : Record) : Option (List String) := do
  if !hasOnly o ["kind", "with", "direction"] then none
  let kind ← text? o "kind"
  let partner ← optionalText? o "with"
  let direction ← optionalText? o "direction"
  return string kind :: marked "with" reference partner ++ marked "direction" string direction

def inlineValue? (o : Record) (key : String) : Option (List String) :=
  match o.get? key with
  | none => some []
  | some v => if isInline v then some [value v] else none

def stringArray? (o : Record) (key : String) : Option String := do
  let v ← o.get? key
  let _ ← strings? v
  return value v

def bound? (o : Record) (key : String) : Option (List String) :=
  match o.get? key with
  | none => some []
  | some (.num n) => some [key, number n]
  | some _ => none

def Keyword.words? (k : Keyword) (o : Record) : Option (List String) := do
  match k with
  | .exclude =>
    if !hasOnly o ["entities"] then none
    return (← (o.get? "entities").bind strings?).map reference
  | .hasRelationship | .lacksRelationship => relationshipWords? o
  | .hasTag =>
    if !hasOnly o ["tag", "value"] then none
    return string (← text? o "tag") :: (← inlineValue? o "value")
  | .lacksTag =>
    if !hasOnly o ["tag"] then none
    return [string (← text? o "tag")]
  | .hasAnyTag =>
    if !hasOnly o ["tags"] then none
    return [← stringArray? o "tags"]
  | .componentSize =>
    if !hasOnly o ["relationshipKinds", "min", "max"] then none
    return (← stringArray? o "relationshipKinds") :: (← bound? o "min") ++ (← bound? o "max")
  | .sharesRelated =>
    if !hasOnly o ["relationshipKind", "with"] then none
    return [string (← text? o "relationshipKind"), "with", referenceValue (← o.get? "with")]
  | .matchesCulture | .notMatchesCulture =>
    if !hasOnly o ["with"] then none
    return [referenceValue (← o.get? "with")]
  | .hasCulture | .notHasCulture =>
    if !hasOnly o ["culture"] then none
    return [string (← text? o "culture")]
  | .graphPath | .generic => none

def Keyword.statement? (k : Keyword) (o : Record) (forms : String → Forms) : Option Node := do
  match k with
  | .generic => none
  | .graphPath =>
    if !hasOnly o ["assert"] then none
    return .block [k.word] (← (forms "assert").path)
  | _ => return .line (k.word :: (← k.words? o))

def write? (o : Record) (forms : String → Forms) : Option Node := do
  let k ← Keyword.ofWord? (← text? o "type")
  k.statement? o forms

end Worldbook.Filter
