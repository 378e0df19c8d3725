/-!
# Words of the filter language

A filter record has the word of its statement as its `type`.
-/

namespace Worldbook.Filter

inductive Keyword where
  | exclude
  | hasRelationship
  | lacksRelationship
  | hasTag
  | lacksTag
  | hasAnyTag
  | componentSize
  | sharesRelated
  | matchesCulture
  | notMatchesCulture
  | hasCulture
  | notHasCulture
  | graphPath
  /-- The block `filter do ... end`: a record written field by field. -/
  | generic
deriving DecidableEq, Repr

namespace Keyword

def all : List Keyword :=
  [exclude, hasRelationship, lacksRelationship, hasTag, lacksTag, hasAnyTag, componentSize,
    sharesRelated, matchesCulture, notMatchesCulture, hasCulture, notHasCulture, graphPath, generic]

def word : Keyword → String
  | exclude => "exclude"
  | hasRelationship => "has_relationship"
  | lacksRelationship => "lacks_relationship"
  | hasTag => "has_tag"
  | lacksTag => "lacks_tag"
  | hasAnyTag => "has_any_tag"
  | componentSize => "component_size"
  | sharesRelated => "shares_related"
  | matchesCulture => "matches_culture"
  | notMatchesCulture => "not_matches_culture"
  | hasCulture => "has_culture"
  | notHasCulture => "not_has_culture"
  | graphPath => "graph_path"
  | generic => "filter"

def ofWord? (word : String) : Option Keyword := all.find? (·.word == word)

def isBlock : Keyword → Bool
  | graphPath | generic => true
  | _ => false

end Keyword

end Worldbook.Filter
