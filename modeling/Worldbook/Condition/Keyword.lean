/-!
# Words of the condition language

A condition record has the word of its statement as its `type`.
-/

namespace Worldbook.Condition

inductive Keyword where
  | pressure
  | cap
  | entityCount
  | tagExists
  | lacksTag
  | relationshipExists
  | relationshipCount
  | randomChance
  | timeElapsed
  | eraMatch
  | prominence
  | entityExists
  | notSelf
  | and
  | or
  | graphPath
  /-- The block `condition do ... end`: a record written field by field. -/
  | generic
deriving DecidableEq, Repr

namespace Keyword

def all : List Keyword :=
  [pressure, cap, entityCount, tagExists, lacksTag, relationshipExists, relationshipCount,
    randomChance, timeElapsed, eraMatch, prominence, entityExists, notSelf, and, or, graphPath,
    generic]

def word : Keyword → String
  | pressure => "pressure"
  | cap => "cap"
  | entityCount => "entity_count"
  | tagExists => "tag_exists"
  | lacksTag => "lacks_tag"
  | relationshipExists => "relationship_exists"
  | relationshipCount => "relationship_count"
  | randomChance => "random_chance"
  | timeElapsed => "time_elapsed"
  | eraMatch => "era_match"
  | prominence => "prominence"
  | entityExists => "entity_exists"
  | notSelf => "not_self"
  | and => "and"
  | or => "or"
  | graphPath => "graph_path"
  | generic => "condition"

def ofWord? (word : String) : Option Keyword := all.find? (·.word == word)

def isBlock : Keyword → Bool
  | and | or | graphPath | generic => true
  | _ => false

end Keyword

end Worldbook.Condition
