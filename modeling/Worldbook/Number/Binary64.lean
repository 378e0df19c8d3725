/-!
# Binary64 numbers

A finite double is a sign and a whole number of quanta of `2^-1074`, of which only 53 leading
bits may be set. Reading a decimal is one exact quotient of natural numbers, rounded to the
nearest count that fits, a tie going to the even neighbour.
-/

namespace Worldbook

/-- The quanta in `2^1024`, which no finite double reaches. -/
def Binary64.limit : Nat := Nat.pow 2 2098

/-- A count of quanta that a finite double can hold: 53 significant bits, below the limit. -/
def Binary64.Representable (quanta : Nat) : Prop :=
  quanta < limit ∧ Nat.pow 2 (quanta.log2 - 52) ∣ quanta

instance (quanta : Nat) : Decidable (Binary64.Representable quanta) :=
  inferInstanceAs (Decidable (_ ∧ _))

/-- A double that is not a NaN; no operation here yields one. -/
inductive Binary64 where
  | finite (negative : Bool) (quanta : Nat) (representable : Binary64.Representable quanta)
  | infinite (negative : Bool)
deriving DecidableEq

namespace Binary64

def quantaPerUnit : Nat := Nat.pow 2 1074

/-- The natural number nearest to a quotient, a tie going to the even one. -/
def roundDiv (num den : Nat) : Nat :=
  let q := num / den
  let r := num % den
  if 2 * r < den ∨ (2 * r = den ∧ q % 2 = 0) then q else q + 1

/-- The count of quanta with 53 significant bits nearest to a quotient. -/
def roundQuanta (num den : Nat) : Nat :=
  let step := Nat.pow 2 ((num / den).log2 - 52)
  roundDiv num (den * step) * step

/-- The double nearest to a quotient of quanta, infinite when it is too large. -/
def ofQuotient (negative : Bool) (num den : Nat) : Binary64 :=
  let quanta := roundQuanta num den
  if h : Representable quanta then .finite negative quanta h else .infinite negative

theorem limit_pos : 0 < limit := by
  unfold limit
  apply Nat.two_pow_pos

theorem representable_zero : Representable 0 := ⟨limit_pos, Nat.dvd_zero _⟩

def zero (negative : Bool) : Binary64 := .finite negative 0 representable_zero

/-- The double nearest to `digits * 10 ^ exponent`. Exponents out of every double's reach are
answered without computing the power. -/
def ofDecimal (negative : Bool) (digits : Nat) (exponent : Int) : Binary64 :=
  if digits = 0 then zero negative
  else if 400 < exponent then .infinite negative
  else if exponent + digits.log2 + 1 < -400 then zero negative
  else match exponent with
    | .ofNat e => ofQuotient negative (digits * Nat.pow 10 e * quantaPerUnit) 1
    | .negSucc e => ofQuotient negative (digits * quantaPerUnit) (Nat.pow 10 (e + 1))

def negate : Binary64 → Binary64
  | .finite n q h => .finite (!n) q h
  | .infinite n => .infinite (!n)

def isFinite : Binary64 → Bool
  | .finite .. => true
  | .infinite _ => false

def isBelowZero : Binary64 → Bool
  | .finite n q _ => n && q != 0
  | .infinite n => n

/-- Numeric equality: the two zeros are equal. -/
def same : Binary64 → Binary64 → Bool
  | .finite n q _, .finite n' q' _ => q == q' && (n == n' || q == 0)
  | .infinite n, .infinite n' => n == n'
  | _, _ => false

end Binary64

end Worldbook
