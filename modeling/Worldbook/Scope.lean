/-!
# Binding scopes

The names declared so far in one top-level item, without their `$`. A reference is written back
with a `$` when the part before its first point is bound.
-/

namespace Worldbook

structure Scope where
  /-- The bound names, in the order of their first declaration. -/
  names : List String
deriving DecidableEq, Repr

namespace Scope

def empty : Scope := ⟨[]⟩

def size (s : Scope) : Nat := s.names.length

def isBound (s : Scope) (base : String) : Bool := s.names.contains base

def hasSigil (token : String) : Bool := token.toList.head? = some '$'

def baseOf (name : String) : String :=
  match name.toList with
  | '$' :: rest => String.ofList rest
  | _ => name

def stem (token : String) : String := String.ofList (token.toList.takeWhile (· != '.'))

def referenceTo (base : String) : String := "$" ++ base

/-- Binds a name; a name that is bound stays where it is. The second part is its written form. -/
def declare (s : Scope) (name : String) : Scope × String :=
  let base := baseOf name
  (if s.isBound base then s else ⟨s.names ++ [base]⟩, referenceTo base)

/-- The reference that a token must be: one with a `$`, or one whose stem is bound. -/
def require? (s : Scope) (token : String) : Option String :=
  if hasSigil token then some token
  else if s.isBound (stem token) then some (referenceTo token)
  else none

/-- The reference that a token may be; any other token stands for itself. -/
def resolve (s : Scope) (token : String) : String := (s.require? token).getD token

end Scope

end Worldbook
