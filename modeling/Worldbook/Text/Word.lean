/-!
# Plain words

ASCII letters, digits and the underscore, the first not a digit. Words are what is written without
quotes.
-/

namespace Worldbook

def isWordStart (c : Char) : Bool := c.isAlpha || c = '_'

def isWordChar (c : Char) : Bool := c.isAlphanum || c = '_'

/-- Word characters, with single joiners in front of some of them. -/
def isJoined (joiner : Char) : List Char → Bool
  | [] => true
  | c :: rest =>
    (isWordChar c || (c = joiner && rest.head?.any isWordChar)) && isJoined joiner rest

def isJoinedWord (joiner : Char) : List Char → Bool
  | [] => false
  | c :: rest => isWordStart c && isJoined joiner rest

def isPlainWord : List Char → Bool
  | [] => false
  | c :: rest => isWordStart c && rest.all isWordChar

def isVariable : List Char → Bool
  | '$' :: rest => isJoinedWord '.' rest
  | _ => false

def isBinding : List Char → Bool
  | '$' :: rest => isPlainWord rest
  | _ => false

end Worldbook
