import Worldbook.Json.Basic
import Worldbook.Compile.Literal
import Worldbook.Number.Decimal
import Worldbook.Text.Quoted
import Worldbook.Text.Word

/-!
# Values as source text

Strings stand bare where they read back as themselves. Where a reference may stand, only bindings
do, since a bare name could be taken for one.
-/

namespace Worldbook.Written

/-! ## Strings -/

/-- The control characters of both ranges are escaped. -/
def isControl (c : Char) : Bool := c.toNat < 0x20 || (0x7f ≤ c.toNat && c.toNat ≤ 0x9f)

def quote (s : String) : String := String.ofList (Quoted.encode isControl s.toList)

/-- The string reads back as itself without quotes. -/
def isBare (s : String) : Bool :=
  let cs := s.toList
  (isJoinedWord '-' cs || isJoinedWord '.' cs || (isJoinedWord ':' cs && cs.count ':' ≤ 1) ||
    isVariable cs) && !isReserved s

def isPlainKey (s : String) : Bool := isPlainWord s.toList && !isReserved s

def string (s : String) : String := if isBare s then s else quote s

def reference (s : String) : String := if isVariable s.toList then s else quote s

def alias? (s : String) : Option String := if isBinding s.toList then some s else none

/-! ## Numbers -/

/-- Doubles stand without an exponent and always with a point. -/
def floatLayout : FloatLayout := ⟨fun _ => true, true⟩

def number : Number → String
  | .int i => toString i
  | .float x => floatLayout.text x

/-! ## Values -/

/-- An object that is written as a call: a word and arguments that are no arrays. -/
def call? (members : Record) : Option (String × List Json) := do
  if members.length ≠ 2 then none
  let name ← (members.get? "call").bind Json.string?
  let args ← (members.get? "args").bind Json.array?
  if isPlainKey name && args.all (·.array?.isNone) then some (name, args) else none

def memberKey (key : String) : String := if isPlainWord key.toList then key else quote key

mutual

def value : Json → String
  | .null => "null"
  | .bool b => if b then "true" else "false"
  | .num n => number n
  | .str s => string s
  | .arr items => "[" ++ String.intercalate ", " (values items) ++ "]"
  | .obj members =>
    match call? members with
    | some (name, _) => name ++ "(" ++ String.intercalate ", " (callArgs members) ++ ")"
    | none => "\x7b" ++ String.intercalate ", " (memberValues members) ++ "\x7d"

def values : List Json → List String
  | [] => []
  | v :: rest => value v :: values rest

def memberValues : List (String × Json) → List String
  | [] => []
  | (key, v) :: rest => (memberKey key ++ ": " ++ value v) :: memberValues rest

def callArgs : List (String × Json) → List String
  | [] => []
  | (_, .arr items) :: _ => values items
  | _ :: rest => callArgs rest

end

mutual

def referenceValue : Json → String
  | .str s => reference s
  | .arr items => "[" ++ String.intercalate ", " (referenceValues items) ++ "]"
  | v => value v

def referenceValues : List Json → List String
  | [] => []
  | v :: rest => referenceValue v :: referenceValues rest

end

def fieldValue (key : String) (v : Json) : String :=
  if Value.referenceKeys.contains key then referenceValue v else value v

/-! ## Values on one line -/

def isScalar : Json → Bool
  | .obj members => (call? members).isSome
  | .arr _ => false
  | _ => true

/-- Scalars and arrays of at least one scalar fit on a line. -/
def isInline : Json → Bool
  | .arr items => !items.isEmpty && items.all isScalar
  | v => isScalar v

def pairs? : Record → Option (List String)
  | [] => some []
  | (key, v) :: rest => do
    if !isPlainKey key || !isInline v then none
    return key :: fieldValue key v :: (← pairs? rest)

end Worldbook.Written
