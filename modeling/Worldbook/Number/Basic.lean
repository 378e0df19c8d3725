import Worldbook.Number.Binary64

/-!
# Numbers

Whole numbers and doubles stay apart, so that `5` and `5.0` are different numbers and each is
written back as it was read. A numeral is a number as written: sign, whole digits, fraction and
exponent.
-/

namespace Worldbook

inductive Number where
  | int (value : Int)
  | float (value : Binary64)
deriving DecidableEq

namespace Number

def inInt64 (i : Int) : Bool := -9223372036854775808 ≤ i && i < 9223372036854775808

/-- The number with the other sign. The least whole number has no counterpart of 64 bits and
becomes a double. -/
def negate : Number → Number
  | .int i => if inInt64 (-i) then .int (-i) else .float (.ofDecimal false i.natAbs 0)
  | .float x => .float x.negate

def isFinite : Number → Bool
  | .int _ => true
  | .float x => x.isFinite

/-- Numeric equality within a kind; a whole number never equals a double. -/
def same : Number → Number → Bool
  | .int i, .int j => i == j
  | .float x, .float y => x.same y
  | _, _ => false

end Number

structure Numeral where
  negative : Bool
  whole : List Char
  fraction : Option (List Char)
  /-- Whether the exponent has a minus sign, and its digits. -/
  exponent : Option (Bool × List Char)

namespace Numeral

def natOfDigits (digits : List Char) : Nat :=
  digits.foldl (fun n c => 10 * n + (c.toNat - '0'.toNat)) 0

def isWhole (n : Numeral) : Bool := n.fraction.isNone && n.exponent.isNone

def toInt (n : Numeral) : Int :=
  let magnitude : Int := natOfDigits n.whole
  if n.negative then -magnitude else magnitude

def toBinary64 (n : Numeral) : Binary64 :=
  let fraction := n.fraction.getD []
  let scale : Int := match n.exponent with
    | none => 0
    | some (minus, digits) => if minus then -(natOfDigits digits : Int) else natOfDigits digits
  .ofDecimal n.negative (natOfDigits (n.whole ++ fraction)) (scale - fraction.length)

/-- A whole number when it is written as one and fits 64 bits, else the nearest double. -/
def toNumber (n : Numeral) : Number :=
  if n.isWhole && Number.inInt64 n.toInt then .int n.toInt else .float n.toBinary64

end Numeral

end Worldbook
