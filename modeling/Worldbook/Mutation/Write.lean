import Worldbook.Mutation.Keyword
import Worldbook.Written.Forms

/-!
# Writing mutations

A record that its keyword can express is written in one statement; any other is not written here.
-/

namespace Worldbook.Mutation

open Written

/-- The operator and the amount of a change; the sign goes into the operator. The least whole
number has no positive counterpart and is not written this way. -/
def change? : Json → Option (List String)
  | .num (.int i) =>
    if 0 ≤ i then some ["+=", number (.int i)]
    else if Number.inInt64 (-i) then some ["-=", number (.int (-i))]
    else none
  | .num (.float x) =>
    if x.isBelowZero then some ["-=", number (.float x.negate)] else some ["+=", number (.float x)]
  | _ => none

def mutate? (target id : String) (o : Record) : Option Node := do
  return .line (["mutate", target, id] ++ (← (o.get? "delta").bind change?))

def direction? (o : Record) : Option (List String) := do
  return marked "direction" string (← optionalText? o "direction")

def tagValue? (o : Record) : Option (List String) :=
  match o.get? "value" with
  | none => some []
  | some v => if isInline v then some [value v] else none

def entityAndKind? (o : Record) : Option (List String) := do
  return [reference (← text? o "entity"), string (← text? o "relationshipKind")]

def Keyword.words? (k : Keyword) (o : Record) : Option (List String) := do
  match k with
  | .changeStatus =>
    if !hasOnly o ["entity", "newStatus"] then none
    return [reference (← text? o "entity"), string (← text? o "newStatus")]
  | .setTag =>
    if !hasOnly o ["entity", "tag", "value", "valueFrom"] then none
    return [reference (← text? o "entity"), string (← text? o "tag")] ++ (← tagValue? o) ++
      marked "from" reference (← optionalText? o "valueFrom")
  | .removeTag =>
    if !hasOnly o ["entity", "tag"] then none
    return [reference (← text? o "entity"), string (← text? o "tag")]
  | .archiveRelationship =>
    if !hasOnly o ["entity", "relationshipKind", "with", "direction"] then none
    return (← entityAndKind? o) ++ marked "with" reference (← optionalText? o "with") ++
      (← direction? o)
  | .archiveAllRelationships =>
    if !hasOnly o ["entity", "relationshipKind", "direction"] then none
    return (← entityAndKind? o) ++ (← direction? o)
  | .transferRelationship =>
    if !hasOnly o ["entity", "relationshipKind", "from", "to"] then none
    return (← entityAndKind? o) ++
      ["from", reference (← text? o "from"), "to", reference (← text? o "to")]
  | .updateRateLimit =>
    if !hasOnly o ["cooldown"] then none
    match o.get? "cooldown" with
    | none => return []
    | some (.num n) => return [number n]
    | some _ => none
  | _ => none

def forEachRelated? (o : Record) (forms : String → Forms) : Option Node := do
  if !hasOnly o ["entity", "relationshipKind", "direction", "as", "actions"] then none
  let header := Keyword.forEachRelated.word :: (← entityAndKind? o) ++ (← direction? o) ++
    (← aliasWord? o).flatMap (["as", ·])
  return .block header (← (forms "actions").mutations)

def alternative? (o : Record) (forms : String → Forms) : Option (List Node) := do
  if !o.has "else" then return []
  return [.block ["else"] (← (forms "else").mutations)]

def conditional? (o : Record) (forms : String → Forms) : Option Node := do
  if !hasOnly o ["conditions", "then", "else"] then none
  return .block [Keyword.conditional.word]
    ([.block ["when"] (← (forms "conditions").conditions),
      .block ["then"] (← (forms "then").mutations)] ++ (← alternative? o forms))

def Keyword.statement? (k : Keyword) (o : Record) (forms : String → Forms) : Option Node := do
  match k with
  | .generic => none
  | .createRelationship => relationship? "rel" o ["type"]
  | .modifyPressure =>
    if !hasOnly o ["pressureId", "delta"] then none
    mutate? "pressure" (string (← text? o "pressureId")) o
  | .adjustProminence =>
    if !hasOnly o ["entity", "delta"] then none
    mutate? "prominence" (reference (← text? o "entity")) o
  | .forEachRelated => forEachRelated? o forms
  | .conditional => conditional? o forms
  | _ => return .line (k.word :: (← k.words? o))

def write? (o : Record) (forms : String → Forms) : Option Node := do
  let k ← Keyword.ofType? (← text? o "type")
  k.statement? o forms

end Worldbook.Mutation
