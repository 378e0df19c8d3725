import Worldbook.Json.Basic
import Worldbook.Text.Word

/-!
# Mentions of variables

A `$` with a word behind it mentions the variable of that name, in strings and in object keys
alike.
-/

namespace Worldbook

/-- The names after a `$` in a text, from left to right. -/
def mentions : List Char → List String
  | '$' :: c :: rest =>
    if isWordStart c then String.ofList (c :: rest.takeWhile isWordChar) :: mentions (c :: rest)
    else mentions (c :: rest)
  | _ :: rest => mentions rest
  | [] => []

namespace Json

mutual

def mentioned : Json → List String
  | .str s => mentions s.toList
  | .arr items => mentionedItems items
  | .obj members => mentionedMembers members
  | _ => []

def mentionedItems : List Json → List String
  | [] => []
  | v :: rest => mentioned v ++ mentionedItems rest

def mentionedMembers : List (String × Json) → List String
  | [] => []
  | (key, v) :: rest => mentions key.toList ++ mentioned v ++ mentionedMembers rest

end

/-- The names that a value mentions, each once, in the order of their first mention. -/
def references (v : Json) : List String := v.mentioned.eraseDups

end Json

end Worldbook
