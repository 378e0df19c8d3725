import Worldbook.Compile.Nested
import Worldbook.Condition.Keyword

/-!
# Compiling conditions

The statements of `applicability` and `conditions` lists.
-/

namespace Worldbook.Condition

open CompileM

namespace Keyword

/-- A block keyword must be written as a block without labels, any other must not be a block. -/
def fits (k : Keyword) : Statement → Bool
  | .block _ _ labels _ _ => k.isBlock && labels.isEmpty
  | .field .. | .predicate .. | .bare .. => !k.isBlock
  | _ => false

def misfit (k : Keyword) : Problem :=
  if k.isBlock then .needsBlock k.word else .takesNoBlock k.word

def relationshipFields (args : Args) : Attempt (Record × Args) := do
  let (kind, args) ← args.text "a relationship kind"
  let (direction, args) ← args.text "a direction"
  let (targetKind, args) := args.text?
  let (targetStatus, args) := args.text?
  return ([textField "relationshipKind" kind, textField "direction" direction] ++
    optionalText "targetKind" targetKind ++ optionalText "targetStatus" targetStatus, args)

def fields (k : Keyword) (s : Statement) (body : Nested) : Attempt Record := do
  let args := Args.of s
  match k with
  | .pressure =>
    let (id, args) ← args.text "a pressure id"
    let bounds ← requiredBounds s
    args.finish
    return textField "pressureId" id :: bounds
  | .cap =>
    let (_, args) := args.marker "kind"
    let (kind, args) ← args.text "an entity kind"
    let bounds ← requiredBounds s
    args.finish
    return textField "kind" kind :: bounds
  | .entityCount =>
    let (_, args) := args.marker "kind"
    let (kind, args) ← args.text "an entity kind"
    let (subtype, args) := args.text?
    let (status, args) := args.text?
    let bounds ← optionalBounds s
    args.finish
    return textField "kind" kind :: optionalText "subtype" subtype ++
      optionalText "status" status ++ bounds
  | .tagExists | .lacksTag =>
    let (tag, args) ← args.text "a tag"
    let (entity, args) := args.value?
    let entity ← optionalReference "entity" entity
    args.finish
    return textField "tag" tag :: entity
  | .relationshipExists =>
    let (fields, args) ← relationshipFields args
    if s.comparison?.isSome then reject (.takesNoComparison s.keyword) s.span
    args.finish
    return fields
  | .relationshipCount =>
    let (fields, args) ← relationshipFields args
    let bounds ← optionalBounds s
    args.finish
    return fields ++ bounds
  | .randomChance =>
    let (chance, args) ← args.number "a probability"
    args.finish
    return [("chance", .ofNumber chance)]
  | .timeElapsed =>
    let (ticks, args) ← args.number "a tick count"
    let (since, args) ← args.markedText "since" "a reference point after 'since'"
    args.finish
    return ("minTicks", .ofNumber ticks) :: optionalText "since" since
  | .eraMatch =>
    let eras := Value.literals args.flat
    if eras.isEmpty then reject (.missingArgument k.word "at least one era") s.span
    return [("eras", .arr eras)]
  | .prominence =>
    let (least, args) ← args.markedText "min" "a prominence level"
    let (most, args) ← args.markedText "max" "a prominence level"
    if least.isNone && most.isNone then
      reject (.missingArgument k.word "'min <level>' and/or 'max <level>'") s.span
    args.finish
    return optionalText "min" least ++ optionalText "max" most
  | .entityExists =>
    let (entity, args) ← args.value "an entity reference"
    let entity ← requiredReference entity
    args.finish
    return [("entity", entity)]
  | .notSelf =>
    args.finish
    return []
  | .and | .or =>
    let nested ← body.conditions
    args.finish
    return [("conditions", .arr nested)]
  | .graphPath =>
    let assertion ← body.path s.span
    args.finish
    return [("assert", .obj assertion)]
  | .generic => body.fields []

end Keyword

def compile (s : Statement) (body : Nested) : Attempt Json := do
  match s.plainKeyword?.bind Keyword.ofWord? with
  | none =>
    unknownKeyword "condition" s
    failure
  | some k =>
    if !k.fits s then reject k.misfit s.span
    let fields ← k.fields s body
    return .obj (if k = .generic then fields else textField "type" k.word :: fields)

def compileAll (body : List Child) : CompileM (List Json) :=
  collect (fun (s, nested) => compile s nested) body

end Worldbook.Condition
