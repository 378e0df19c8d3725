import Worldbook.Number.Binary64

/-!
# Decimal text of doubles

A double is written with the fewest digits that read back as the same double, the nearest of
those where two do. What is left to a format is where positional notation ends and which way an
exact tie between two shortest decimals goes.
-/

namespace Worldbook

structure Decimal where
  digits : Nat
  exponent : Int
deriving DecidableEq, Repr

namespace Decimal

def figures (d : Decimal) : List Char := Nat.toDigits 10 d.digits

/-- The power of ten of the leading digit. -/
def leading (d : Decimal) : Int := d.exponent + (d.figures.length - 1 : Nat)

/-- Moves trailing zeros into the exponent; `fuel` bounds how many. -/
def stripZeros : Nat → Decimal → Decimal
  | 0, d => d
  | fuel + 1, d =>
    if d.digits ≠ 0 ∧ d.digits % 10 = 0 then stripZeros fuel ⟨d.digits / 10, d.exponent + 1⟩ else d

end Decimal

structure FloatLayout where
  /-- Whether a number whose leading digit stands at `10 ^ k` is written without an exponent. -/
  positional : Int → Bool
  /-- An exact tie between two shortest decimals goes up; otherwise to the even one. -/
  tiesUp : Bool

namespace Binary64

/-- The quotient `quanta / (quantaPerUnit * 10 ^ exponent)` as numerator and denominator. -/
def scaled (quanta : Nat) : Int → Nat × Nat
  | .ofNat e => (quanta, quantaPerUnit * Nat.pow 10 e)
  | .negSucc e => (quanta * Nat.pow 10 (e + 1), quantaPerUnit)

/-- The power of ten of the leading digit of a positive count of quanta. Every such count is
above `10 ^ -330`. -/
def leadingPower (quanta : Nat) : Int :=
  (Nat.toDigits 10 (quanta * Nat.pow 10 330 / quantaPerUnit)).length - 331

def readsBack (quanta : Nat) (d : Decimal) : Bool :=
  match ofDecimal false d.digits d.exponent with
  | .finite _ q _ => q == quanta
  | .infinite _ => false

/-- The better of the two decimals around `num / den`, in units of `10 ^ exponent`, if one of them
reads back. -/
def better (tiesUp : Bool) (quanta num den : Nat) (exponent : Int) : Option Decimal :=
  let low : Decimal := ⟨num / den, exponent⟩
  let high : Decimal := ⟨num / den + 1, exponent⟩
  let r := num % den
  let goesUp := den < 2 * r || (den == 2 * r && (tiesUp || low.digits % 2 == 1))
  match readsBack quanta low, readsBack quanta high with
  | true, true => some (if goesUp then high else low)
  | true, false => some low
  | false, true => some high
  | false, false => none

def neighbour (tiesUp : Bool) (quanta : Nat) (count : Nat) : Option Decimal :=
  let exponent := leadingPower quanta - count + 1
  let quotient := scaled quanta exponent
  better tiesUp quanta quotient.1 quotient.2 exponent

def exactDecimal (quanta : Nat) : Decimal := ⟨quanta * Nat.pow 5 1074, -1074⟩

/-- The shortest decimal that reads back; seventeen digits always suffice, and all of them do in
any case. -/
def shortest (tiesUp : Bool) (quanta : Nat) : Decimal :=
  let found := (List.range 17).findSome? fun i => neighbour tiesUp quanta (i + 1)
  (found.getD (exactDecimal quanta)).stripZeros 1100

end Binary64

namespace FloatLayout

/-- Digits with a point after the place of `10 ^ 0`, always with a digit on either side of it. -/
def pointed (figures : List Char) : Int → List Char
  | .ofNat k =>
    figures.take (k + 1) ++ List.replicate (k + 1 - figures.length) '0' ++ '.' ::
      (if figures.length ≤ k + 1 then ['0'] else figures.drop (k + 1))
  | .negSucc k => '0' :: '.' :: (List.replicate k '0' ++ figures)

def exponential (figures : List Char) (k : Int) : List Char :=
  let mantissa := match figures with
    | [] => []
    | [c] => [c]
    | c :: rest => c :: '.' :: rest
  mantissa ++ 'e' :: (if k < 0 then '-' else '+') :: Nat.toDigits 10 k.natAbs

def write (layout : FloatLayout) (d : Decimal) : List Char :=
  if layout.positional d.leading then pointed d.figures d.leading
  else exponential d.figures d.leading

def text (layout : FloatLayout) : Binary64 → String
  | .finite negative quanta _ =>
    let digits :=
      if quanta = 0 then ['0', '.', '0'] else layout.write (Binary64.shortest layout.tiesUp quanta)
    String.ofList (if negative then '-' :: digits else digits)
  | .infinite negative => if negative then "-inf" else "inf"

end FloatLayout

end Worldbook
