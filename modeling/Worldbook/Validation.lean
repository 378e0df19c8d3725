import Worldbook.Collection
import Worldbook.Json.Basic
import Worldbook.Scope

/-!
# Validating a configuration

Ids are unique within a collection, and the names in certain fields are ids of another one. A
reference is only checked when that other collection is there, so that a part of a configuration
can be validated by itself.
-/

namespace Worldbook

inductive Issue where
  | duplicateId (collection : String) (index : Nat) (field id : String)
  | unknownReference (collection : String) (index : Nat) (field name target : String)
deriving DecidableEq

namespace Issue

def code : Issue → String
  | duplicateId .. => "duplicate-id"
  | unknownReference .. => "unknown-reference"

def message : Issue → String
  | duplicateId collection _ field id =>
    "Duplicate " ++ field ++ " '" ++ id ++ "' in " ++ collection
  | unknownReference collection _ field name target =>
    "'" ++ name ++ "' in " ++ collection ++ "." ++ field ++ " is not declared in " ++ target

def path : Issue → List String
  | duplicateId collection index field _ => [collection, toString index, field]
  | unknownReference collection index field _ _ => [collection, toString index, field]

end Issue

structure ReferenceRule where
  collection : String
  field : String
  target : String

namespace Validation

def rules : List ReferenceRule :=
  [⟨"relationshipKinds", "srcKinds", "entityKinds"⟩,
   ⟨"relationshipKinds", "dstKinds", "entityKinds"⟩,
   ⟨"seedEntities", "kind", "entityKinds"⟩,
   ⟨"seedRelationships", "kind", "relationshipKinds"⟩,
   ⟨"seedRelationships", "src", "seedEntities"⟩,
   ⟨"seedRelationships", "dst", "seedEntities"⟩]

def items? (config : Record) (key : String) : Option (List Json) :=
  (config.get? key).bind Json.array?

def ids? (config : Record) (key : String) : Option (List String) := do
  let field ← (← Collection.ofKey? key).requiredId?
  let items ← items? config key
  return items.filterMap (·.text? field)

/-- The items from number `index` on whose id was seen before. -/
def duplicates (key field : String) : Nat → List String → List Json → List Issue
  | _, _, [] => []
  | index, seen, item :: rest =>
    match item.text? field with
    | none => duplicates key field (index + 1) seen rest
    | some id =>
      if seen.contains id then
        .duplicateId key index field id :: duplicates key field (index + 1) seen rest
      else duplicates key field (index + 1) (id :: seen) rest

def duplicateIds (config : Record) (c : Collection) : List Issue :=
  match c.requiredId?, items? config c.key with
  | some field, some items => duplicates c.key field 0 [] items
  | _, _ => []

def names : Json → List String
  | .str s => [s]
  | .arr items => items.filterMap Json.string?
  | _ => []

/-- The names of one item that are no ids; a variable is not checked. -/
def unknownNames (rule : ReferenceRule) (known : List String) (index : Nat) (item : Json) :
    List Issue :=
  match item.get? rule.field with
  | none => []
  | some v =>
    ((names v).filter fun name => !Scope.hasSigil name && !known.contains name).map fun name =>
      .unknownReference rule.collection index rule.field name rule.target

def unknownReferences (config : Record) (rule : ReferenceRule) : List Issue :=
  match items? config rule.collection, ids? config rule.target with
  | some items, some known =>
    (items.zipIdx.map fun (item, index) => unknownNames rule known index item).flatten
  | _, _ => []

end Validation

/-- The issues of a configuration, repeated ids first. -/
def validate : Json → List Issue
  | .obj config =>
    Collection.all.flatMap (Validation.duplicateIds config) ++
      Validation.rules.flatMap (Validation.unknownReferences config)
  | _ => []

end Worldbook
