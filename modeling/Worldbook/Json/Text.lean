import Worldbook.Json.Basic
import Worldbook.Number.Decimal
import Worldbook.Text.Quoted

/-!
# Compact text of a value

One line without blanks. Characters above the control range stand as they are.
-/

namespace Worldbook.Json

/-- Doubles stand without an exponent from `10^-5` up to `10^16`. -/
def floatLayout : FloatLayout := ⟨fun k => -5 ≤ k && k < 16, false⟩

def numberText : Number → String
  | .int i => toString i
  | .float x => floatLayout.text x

def isControl (c : Char) : Bool := c.toNat < 0x20

def quoted (s : String) : String := String.ofList (Quoted.encode isControl s.toList)

mutual

def text : Json → String
  | .null => "null"
  | .bool b => if b then "true" else "false"
  | .num n => numberText n
  | .str s => quoted s
  | .arr items => "[" ++ String.intercalate "," (itemTexts items) ++ "]"
  | .obj members => "\x7b" ++ String.intercalate "," (memberTexts members) ++ "\x7d"

def itemTexts : List Json → List String
  | [] => []
  | x :: rest => text x :: itemTexts rest

def memberTexts : List (String × Json) → List String
  | [] => []
  | (key, x) :: rest => (quoted key ++ ":" ++ text x) :: memberTexts rest

end

end Worldbook.Json
