import Worldbook.Compile.Nested
import Worldbook.Mutation.Keyword

/-!
# Compiling mutations

The statements of `mutations`, `effects` and `stateUpdates` lists. Entities that a mutation acts on
must be bound.
-/

namespace Worldbook.Mutation

open CompileM

namespace Keyword

/-- The keyword of a statement. A relationship line creates one, and the target of a `mutate` line
decides what it changes. -/
def ofStatement? (s : Statement) : Option Keyword :=
  match s with
  | .rel key .. => if key = "seed_relationship" then none else some createRelationship
  | .mutate "pressure" .. => some modifyPressure
  | .mutate "prominence" .. => some adjustProminence
  | .mutate .. => none
  | _ => s.plainKeyword?.bind ofWord?

def fits (k : Keyword) : Statement → Bool
  | .block .. => k.isBlock
  | .rel .. | .mutate .. => true
  | .field .. | .bare .. => !k.isBlock
  | _ => false

end Keyword

/-! ## Shared arguments -/

def entity (args : Args) : Attempt (Json × Args) := do
  let (v, args) ← args.value "an entity reference"
  return (← requiredReference v, args)

def entityAndKind (args : Args) : Attempt (Record × Args) := do
  let (e, args) ← entity args
  let (kind, args) ← args.text "a relationship kind"
  return ([("entity", e), textField "relationshipKind" kind], args)

def direction (args : Args) : Attempt (Record × Args) := do
  let (d, args) ← args.markedText "direction" "a direction"
  return (optionalText "direction" d, args)

def transferEnd (s : Statement) (args : Args) (word : String) :
    Attempt ((String × Json) × Args) := do
  match args.marker word with
  | (false, _) => reject .transferUsage s.span
  | (true, args) =>
    let (v, args) ← args.value "an entity"
    return ((word, ← requiredReference v), args)

/-- The value of a tag, unless `from` comes next. -/
def tagValue (args : Args) : Record × Args :=
  match args.rest with
  | v :: rest =>
    if v.isWord "from" then ([], args) else ([("value", v.literal)], { args with rest := rest })
  | [] => ([], args)

/-! ## Lines with operators -/

/-- A change of an amount, `mutate target id (+=|-=) n`; a subtraction is a change by the negated
amount. -/
def ofMutate (k : Keyword) (id : Value) (change : Change) (amount : Number) : Attempt Record := do
  let delta := match change with
    | .add => amount
    | .subtract => amount.negate
  let subject ← match k with
    | .modifyPressure =>
      match id.text? with
      | some text => pure (textField "pressureId" text)
      | none => reject .pressureIdExpected id.span
    | _ => do pure ("entity", ← requiredReference id)
  return [subject, ("delta", .ofNumber delta)]

/-! ## Conditionals -/

/-- One branch of a conditional; a later one replaces an earlier one. -/
def branch : Child → Branches → CompileM Branches
  | (.block "when" false [] _ _, nested), b =>
    return { b with conditions := some (← nested.conditions) }
  | (.block "then" false [] _ _, nested), b =>
    return { b with consequence := some (← nested.mutations) }
  | (.block "else" false [] _ _, nested), b =>
    return { b with alternative := some (← nested.mutations) }
  | (s, _), b => do
    unknownKeyword "conditional branch" s
    return b

def branches (body : List Child) : CompileM Branches := thread branch body ⟨none, none, none⟩

def conditional (s : Statement) (nested : Nested) : Attempt Record := do
  let b ← nested.branches
  match b.conditions, b.consequence with
  | some conditions, some consequence =>
    return [("conditions", .arr conditions), ("then", .arr consequence)] ++
      (b.alternative.map fun list => ("else", Json.arr list)).toList
  | _, _ =>
    reject (.missingArgument "conditional" "both 'when do ... end' and 'then do ... end'") s.span

/-! ## Statements -/

namespace Keyword

def fields (k : Keyword) (s : Statement) (body : Nested) : Attempt Record := do
  let args := Args.of s
  match k with
  | .createRelationship => reject (.writtenAs k.typeName "'rel kind src -> dst'") s.span
  | .modifyPressure => reject (.writtenAs k.typeName "'mutate pressure id += n'") s.span
  | .adjustProminence =>
    let (e, args) ← entity args
    let (delta, args) ← args.number "a prominence delta"
    args.finish
    return [("entity", e), ("delta", .ofNumber delta)]
  | .changeStatus =>
    let (e, args) ← entity args
    let (status, args) ← args.text "a new status"
    args.finish
    return [("entity", e), textField "newStatus" status]
  | .setTag =>
    let (e, args) ← entity args
    let (tag, args) ← args.text "a tag"
    let (value, args) := tagValue args
    let (source, args) ← args.markedValue "from" "an entity after 'from'"
    let source ← optionalReference "valueFrom" source
    args.finish
    return [("entity", e), textField "tag" tag] ++ value ++ source
  | .removeTag =>
    let (e, args) ← entity args
    let (tag, args) ← args.text "a tag"
    args.finish
    return [("entity", e), textField "tag" tag]
  | .archiveRelationship =>
    let (subject, args) ← entityAndKind args
    let (partner, args) ← args.markedValue "with" "an entity after 'with'"
    let partner ← optionalReference "with" partner
    let (dir, args) ← direction args
    args.finish
    return subject ++ partner ++ dir
  | .archiveAllRelationships =>
    let (subject, args) ← entityAndKind args
    let (dir, args) ← direction args
    args.finish
    return subject ++ dir
  | .transferRelationship =>
    let (subject, args) ← entityAndKind args
    let (giver, args) ← transferEnd s args "from"
    let (taker, args) ← transferEnd s args "to"
    args.finish
    return subject ++ [giver, taker]
  | .forEachRelated =>
    let (subject, args) ← entityAndKind args
    let (dir, args) ← direction args
    let (name, args) ← args.markedText "as" "a binding name after 'as'"
    let bound ← aliasField name
    args.finish
    let actions ← body.mutations
    return subject ++ dir ++ bound ++ [("actions", .arr actions)]
  | .conditional =>
    args.finish
    Mutation.conditional s body
  | .updateRateLimit =>
    if args.rest.isEmpty then return []
    let (cooldown, args) ← args.number "a cooldown"
    args.finish
    return [("cooldown", .ofNumber cooldown)]
  | .generic =>
    args.finish
    body.fields []

end Keyword

def unknown : Statement → CompileM Unit
  | .mutate target _ _ _ span => report (.unknownMutateTarget target) span
  | s => unknownKeyword "mutation" s

def compile (s : Statement) (body : Nested) : Attempt Json := do
  match Keyword.ofStatement? s with
  | none =>
    unknown s
    failure
  | some k =>
    if !k.fits s then reject (.unexpectedShape "mutation" k.typeName s.describe) s.span
    let head := textField "type" k.typeName
    match s with
    | .mutate _ id change amount _ => return .obj (head :: (← ofMutate k id change amount))
    | .rel .. => return .obj (Record.setAll [head] (← s.relationship true))
    | _ =>
      let fields ← k.fields s body
      return .obj (if k = .generic then fields else head :: fields)

def compileAll (body : List Child) : CompileM (List Json) :=
  collect (fun (s, nested) => compile s nested) body

end Worldbook.Mutation
