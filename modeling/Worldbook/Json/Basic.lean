import Worldbook.Number.Basic

/-!
# Configuration values

A configuration is a tree of JSON values. Objects keep their members in the order in which the
keys first came; setting a key that is there replaces its value in place. `Json.same` is the
equality that looks at meaning only: member order does not matter, the kind of a number does.
-/

namespace Worldbook

inductive Json where
  | null
  | bool (value : Bool)
  | num (value : Number)
  | str (value : String)
  | arr (items : List Json)
  | obj (members : List (String × Json))
deriving Inhabited

abbrev Record := List (String × Json)

namespace Record

def get? (r : Record) (key : String) : Option Json := List.lookup key r

def has (r : Record) (key : String) : Bool := (r.get? key).isSome

/-- Sets a key: in place when it is present, at the end when it is new. -/
def set : Record → String → Json → Record
  | [], key, value => [(key, value)]
  | (k, v) :: rest, key, value =>
    if k = key then (key, value) :: rest else (k, v) :: set rest key value

def setAll (r s : Record) : Record := s.foldl (fun acc m => set acc m.1 m.2) r

/-- The record of a list of pairs, a later pair replacing an earlier one with its key. -/
def ofPairs (pairs : List (String × Json)) : Record := setAll [] pairs

def extend (r : Record) (key : String) (items : List Json) : Record :=
  match r.get? key with
  | some (.arr held) => r.set key (.arr (held ++ items))
  | _ => r.set key (.arr items)

def hasOnly (r : Record) (allowed : List String) : Bool := r.all fun m => allowed.contains m.1

end Record

namespace Json

def string? : Json → Option String
  | .str s => some s
  | _ => none

def array? : Json → Option (List Json)
  | .arr items => some items
  | _ => none

def object? : Json → Option Record
  | .obj members => some members
  | _ => none

def bool? : Json → Option Bool
  | .bool b => some b
  | _ => none

def number? : Json → Option Number
  | .num n => some n
  | _ => none

def get? (j : Json) (key : String) : Option Json := j.object?.bind (Record.get? · key)

def text? (j : Json) (key : String) : Option String := (j.get? key).bind string?

/-- The JSON number of a number; an infinite one has none and is null. -/
def ofNumber (n : Number) : Json := if n.isFinite then .num n else .null

mutual

/-- Equality of meaning: members of an object in any order, numbers equal within their kind. -/
def same : Json → Json → Bool
  | .null, .null => true
  | .bool a, .bool b => a == b
  | .num m, .num n => m.same n
  | .str s, .str t => s == t
  | .arr xs, .arr ys => sameItems xs ys
  | .obj xs, .obj ys => xs.length == ys.length && sameMembers xs ys
  | _, _ => false

def sameItems : List Json → List Json → Bool
  | [], [] => true
  | x :: xs, y :: ys => same x y && sameItems xs ys
  | _, _ => false

def sameMembers : List (String × Json) → List (String × Json) → Bool
  | [], _ => true
  | (key, x) :: rest, ys =>
    (match Record.get? ys key with
      | some y => same x y
      | none => false) && sameMembers rest ys

end

end Json

end Worldbook
