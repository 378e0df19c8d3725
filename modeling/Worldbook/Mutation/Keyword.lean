/-!
# Words of the mutation language

The word of a statement is the `type` of its record, with one exception: `archive_relationships`
writes a record of type `archive_all_relationships`.
-/

namespace Worldbook.Mutation

inductive Keyword where
  | createRelationship
  | modifyPressure
  | adjustProminence
  | changeStatus
  | setTag
  | removeTag
  | archiveRelationship
  | archiveAllRelationships
  | transferRelationship
  | forEachRelated
  | conditional
  | updateRateLimit
  /-- The block `mutation do ... end`: a record written field by field. -/
  | generic
deriving DecidableEq, Repr

namespace Keyword

def all : List Keyword :=
  [createRelationship, modifyPressure, adjustProminence, changeStatus, setTag, removeTag,
    archiveRelationship, archiveAllRelationships, transferRelationship, forEachRelated, conditional,
    updateRateLimit, generic]

def typeName : Keyword → String
  | createRelationship => "create_relationship"
  | modifyPressure => "modify_pressure"
  | adjustProminence => "adjust_prominence"
  | changeStatus => "change_status"
  | setTag => "set_tag"
  | removeTag => "remove_tag"
  | archiveRelationship => "archive_relationship"
  | archiveAllRelationships => "archive_all_relationships"
  | transferRelationship => "transfer_relationship"
  | forEachRelated => "for_each_related"
  | conditional => "conditional"
  | updateRateLimit => "update_rate_limit"
  | generic => "mutation"

def word : Keyword → String
  | archiveAllRelationships => "archive_relationships"
  | k => k.typeName

def ofWord? (word : String) : Option Keyword := all.find? (·.word == word)

def ofType? (name : String) : Option Keyword := all.find? (·.typeName == name)

def isBlock : Keyword → Bool
  | forEachRelated | conditional | generic => true
  | _ => false

end Keyword

end Worldbook.Mutation
