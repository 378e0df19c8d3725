/-!
# Collections

A configuration has a fixed set of collections. Each is filled by the blocks of one name, and is a
list of records with an id, a list of relationships, or a single record.
-/

namespace Worldbook

inductive Collection.Kind where
  | keyed
  | relationship
  | singleton
  | project
deriving DecidableEq, Repr

structure Collection where
  /-- The name of its blocks in source text. -/
  block : String
  /-- Its key in the configuration. -/
  key : String
  /-- The stem of its output file. -/
  file : String
  /-- Blocks that group its blocks and rows. -/
  containers : List String
  /-- The field that the first label fills. -/
  idField : Option String
  /-- The field that the second label fills. -/
  nameField : Option String
  kind : Collection.Kind
deriving DecidableEq

namespace Collection

def isList (c : Collection) : Bool := c.kind = .keyed || c.kind = .relationship

/-- The id field of a collection whose records must have one. -/
def requiredId? (c : Collection) : Option String := if c.kind = .keyed then c.idField else none

/-- The fields that labels fill, in the order of the labels. -/
def labelFields (c : Collection) : List (Option String) := [c.idField, c.nameField]

def keyed (block key file : String) (containers : List String) (idField : String)
    (nameField : Option String) : Collection :=
  ⟨block, key, file, containers, some idField, nameField, .keyed⟩

def plain (block key : String) (containers : List String) (kind : Kind) (file : String) :
    Collection :=
  ⟨block, key, file, containers, none, none, kind⟩

/-- Every collection, in the order of configurations and output files. -/
def all : List Collection :=
  [plain "project" "project" [] .project "project",
   keyed "entity_kind" "entityKinds" "entity_kinds" ["entity_kinds"] "kind" (some "description"),
   keyed "relationship_kind" "relationshipKinds" "relationship_kinds" ["relationship_kinds"] "kind"
     (some "description"),
   keyed "culture" "cultures" "cultures" ["cultures"] "id" (some "name"),
   keyed "tag" "tagRegistry" "tag_registry" ["tag_registry", "tags"] "tag" none,
   keyed "axis" "axisDefinitions" "axis_definitions" ["axis_definitions", "axes"] "id"
     (some "name"),
   keyed "era" "eras" "eras" ["eras"] "id" (some "name"),
   keyed "pressure" "pressures" "pressures" ["pressures"] "id" (some "name"),
   keyed "generator" "generators" "generators" ["generators"] "id" (some "name"),
   keyed "system" "systems" "systems" ["systems"] "id" (some "name"),
   keyed "action" "actions" "actions" ["actions"] "id" (some "name"),
   keyed "seed_entity" "seedEntities" "seed_entities" ["seed_entities"] "id" (some "name"),
   plain "seed_relationship" "seedRelationships" ["seed_relationships"] .relationship
     "seed_relationships",
   plain "ui_config" "uiConfig" [] .singleton "ui_config",
   plain "distribution_targets" "distributionTargets" [] .singleton "distribution_targets"]

def ofBlock? (name : String) : Option Collection := all.find? (·.block == name)

def ofContainer? (name : String) : Option Collection := all.find? (·.containers.contains name)

def ofKey? (key : String) : Option Collection := all.find? (·.key == key)

end Collection

end Worldbook
