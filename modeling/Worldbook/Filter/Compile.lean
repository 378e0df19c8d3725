import Worldbook.Compile.Nested
import Worldbook.Filter.Keyword

/-!
# Compiling filters

The statements of `filters` and `preferFilters` lists.
-/

namespace Worldbook.Filter

open CompileM

/-- The arguments `kind [with entity] [direction d]`, which path constraints share. -/
def relationshipFields (s : Statement) : Attempt Record := do
  let (kind, args) ← (Args.of s).text "a relationship kind"
  let (partner, args) ← args.markedValue "with" "an entity after 'with'"
  let partner ← optionalReference "with" partner
  let (direction, args) ← args.markedText "direction" "a direction"
  args.finish
  return textField "kind" kind :: partner ++ optionalText "direction" direction

/-- The relationship kinds in front of the bounds of a component size, and what follows them. -/
def leadingKinds : List Value → List Json × List Value
  | [] => ([], [])
  | v :: rest =>
    let more := leadingKinds rest
    match v with
    | .array items _ => (Value.literals items ++ more.1, more.2)
    | v =>
      if v.text?.isSome && !v.isWord "min" && !v.isWord "max" then (v.literal :: more.1, more.2)
      else ([], v :: rest)

def sizeBound (args : Args) (bound : String) : Attempt (Record × Args) := do
  match args.marker bound with
  | (true, args) =>
    let (n, args) ← args.number "a size"
    return ([(bound, .ofNumber n)], args)
  | (false, args) => return ([], args)

namespace Keyword

def fits (k : Keyword) : Statement → Bool
  | .block _ _ labels _ _ => k.isBlock && labels.isEmpty
  | .field .. | .bare .. => !k.isBlock
  | _ => false

def fields (k : Keyword) (s : Statement) (body : Nested) : Attempt Record := do
  let args := Args.of s
  match k with
  | .exclude =>
    let entities ← args.flat.mapM requiredReference
    if entities.isEmpty then reject (.missingArgument k.word "at least one entity") s.span
    return [("entities", .arr entities)]
  | .hasRelationship | .lacksRelationship => relationshipFields s
  | .hasTag =>
    let (tag, args) ← args.text "a tag"
    let (value, args) := args.value?
    args.finish
    return textField "tag" tag :: (value.map fun v => ("value", v.literal)).toList
  | .lacksTag =>
    let (tag, args) ← args.text "a tag"
    args.finish
    return [textField "tag" tag]
  | .hasAnyTag =>
    let tags := Value.literals args.flat
    if tags.isEmpty then reject (.missingArgument k.word "at least one tag") s.span
    return [("tags", .arr tags)]
  | .componentSize =>
    let (kinds, rest) := leadingKinds args.rest
    if kinds.isEmpty then reject (.missingArgument k.word "at least one relationship kind") s.span
    let (least, args) ← sizeBound { args with rest := rest } "min"
    let (most, args) ← sizeBound args "max"
    args.finish
    return ("relationshipKinds", .arr kinds) :: least ++ most
  | .sharesRelated =>
    let (kind, args) ← args.text "a relationship kind"
    let (partner, args) ← args.markedValue "with" "an entity after 'with'"
    match partner with
    | none => reject (.missingArgument k.word "'with <entity>'") s.span
    | some partner =>
      let partner ← reference partner
      args.finish
      return [textField "relationshipKind" kind, ("with", partner)]
  | .matchesCulture | .notMatchesCulture =>
    let (partner, args) ← args.value "an entity to compare cultures with"
    let partner ← reference partner
    args.finish
    return [("with", partner)]
  | .hasCulture | .notHasCulture =>
    let (culture, args) ← args.text "a culture"
    args.finish
    return [textField "culture" culture]
  | .graphPath =>
    let assertion ← body.path s.span
    args.finish
    return [("assert", .obj assertion)]
  | .generic => body.fields []

end Keyword

def compile (s : Statement) (body : Nested) : Attempt Json := do
  match s.plainKeyword?.bind Keyword.ofWord? with
  | none =>
    unknownKeyword "filter" s
    failure
  | some k =>
    if !k.fits s then reject (.unexpectedShape "filter" k.word s.describe) s.span
    let fields ← k.fields s body
    return .obj (if k = .generic then fields else textField "type" k.word :: fields)

def compileAll (body : List Child) : CompileM (List Json) :=
  collect (fun (s, nested) => compile s nested) body

end Worldbook.Filter
