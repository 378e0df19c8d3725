import Mathlib.Tactic.Ring
import Mathlib.Tactic.Positivity
import Worldbook.Number.Basic
import Worldbook.Number.Decimal

/-!
# Doubles read back from their digits

Reading a decimal rounds one exact quotient, so it sees only the value of the decimal and not how
its digits are laid out. The shortest decimal of a double is one that was tried and read back, or
the exact one; either way the text of a finite double reads back as that double.
-/

namespace Worldbook

namespace Binary64

theorem limit_eq : limit = 2 ^ 2098 := by
  rw [limit, Nat.pow_eq]

theorem quantaPerUnit_eq : quantaPerUnit = 2 ^ 1074 := by
  rw [quantaPerUnit, Nat.pow_eq]

theorem roundQuanta_eq (num den : Nat) : roundQuanta num den =
    roundDiv num (den * 2 ^ ((num / den).log2 - 52)) * 2 ^ ((num / den).log2 - 52) := rfl

theorem Representable.dvd {q : Nat} (h : Representable q) : 2 ^ (q.log2 - 52) ∣ q := h.2

/-! ## Rounding sees only the quotient -/

theorem roundDiv_scale (num den : Nat) {k : Nat} (hk : 0 < k) :
    roundDiv (num * k) (den * k) = roundDiv num den := by
  have h1 : 2 * (num % den * k) < den * k ↔ 2 * (num % den) < den := by
    rw [← Nat.mul_assoc]; exact Nat.mul_lt_mul_right hk
  have h2 : 2 * (num % den * k) = den * k ↔ 2 * (num % den) = den := by
    rw [← Nat.mul_assoc]; exact Nat.mul_left_inj (by omega)
  simp only [roundDiv, Nat.mul_div_mul_right _ _ hk, Nat.mul_mod_mul_right, h1, h2]

theorem roundQuanta_scale (num den : Nat) {k : Nat} (hk : 0 < k) :
    roundQuanta (num * k) (den * k) = roundQuanta num den := by
  simp only [roundQuanta_eq, Nat.mul_div_mul_right _ _ hk]
  rw [Nat.mul_right_comm den k, roundDiv_scale _ _ hk]

theorem ofQuotient_scale (negative : Bool) (num den : Nat) {k : Nat} (hk : 0 < k) :
    ofQuotient negative (num * k) (den * k) = ofQuotient negative num den := by
  simp only [ofQuotient, roundQuanta_scale num den hk]

theorem ofQuotient_exact (negative : Bool) {q k : Nat} (h : Representable q) (hk : 0 < k) :
    ofQuotient negative (q * k) k = .finite negative q h := by
  have hq : roundQuanta (q * k) k = q := by
    have := roundQuanta_scale q 1 hk
    rw [Nat.one_mul] at this
    rw [this]
    have hr : q % 2 ^ (q.log2 - 52) = 0 := Nat.mod_eq_zero_of_dvd h.dvd
    simp only [roundQuanta_eq, roundDiv, Nat.div_one, Nat.one_mul, hr, Nat.mul_zero, Nat.two_pow_pos,
      true_or, if_true]
    exact Nat.div_mul_cancel h.dvd
  simp only [ofQuotient, hq, h, dite_true]

theorem ofQuotient_small (negative : Bool) {num den : Nat} (h : 2 * num < den) :
    ofQuotient negative num den = zero negative := by
  have hq : roundQuanta num den = 0 := by
    have hdiv : num / den = 0 := Nat.div_eq_of_lt (by omega)
    have hmod : num % den = num := Nat.mod_eq_of_lt (by omega)
    simp only [roundQuanta_eq, hdiv, Nat.log2_zero, Nat.zero_sub, Nat.pow_zero, Nat.mul_one, roundDiv,
      hmod, h, true_or, if_true]
  simp only [ofQuotient, hq, representable_zero, dite_true, zero]

theorem roundQuanta_ge {num k : Nat} (h : 2 ^ k ≤ num) : 2 ^ k ≤ roundQuanta num 1 := by
  have hn : num ≠ 0 := by have := Nat.two_pow_pos k; omega
  have hlog : k ≤ num.log2 := (Nat.le_log2 hn).2 h
  refine le_trans (Nat.pow_le_pow_right (by omega) hlog) ?_
  simp only [roundQuanta_eq, Nat.div_one, Nat.one_mul]
  have hle : 2 ^ num.log2 ≤ num := Nat.log2_self_le hn
  generalize hs : num.log2 - 52 = s
  have hsplit : 2 ^ num.log2 = 2 ^ (num.log2 - s) * 2 ^ s := by
    rw [← Nat.pow_add]; congr 1; omega
  rw [hsplit] at hle ⊢
  refine Nat.mul_le_mul_right _ ?_
  have : 2 ^ (num.log2 - s) ≤ num / 2 ^ s := (Nat.le_div_iff_mul_le (Nat.two_pow_pos s)).2 hle
  refine le_trans this ?_
  simp only [roundDiv]
  split <;> omega

theorem ofQuotient_large (negative : Bool) {num : Nat} (h : limit ≤ num) :
    ofQuotient negative num 1 = .infinite negative := by
  have hq : ¬ Representable (roundQuanta num 1) := by
    intro hr
    rw [limit_eq] at h
    exact absurd hr.1 (Nat.not_lt.2 (limit_eq ▸ roundQuanta_ge h))
  simp only [ofQuotient, hq, dite_false]

theorem dvd_roundQuanta (num : Nat) :
    2 ^ ((roundQuanta num 1).log2 - 52) ∣ roundQuanta num 1 := by
  simp only [roundQuanta_eq, Nat.div_one, Nat.one_mul]
  generalize hs : num.log2 - 52 = s
  rcases Nat.eq_zero_or_pos s with rfl | hpos
  · have hr : roundDiv num (2 ^ 0) * 2 ^ 0 = num := by
      simp only [roundDiv, Nat.pow_zero, Nat.div_one, Nat.mod_one, Nat.mul_zero, Nat.mul_one]
      simp
    rw [hr, hs, Nat.pow_zero]
    exact Nat.one_dvd num
  · have hlt : num / 2 ^ s < 2 ^ 53 := by
      rw [Nat.div_lt_iff_lt_mul (Nat.two_pow_pos s), ← Nat.pow_add]
      refine lt_of_lt_of_le Nat.lt_log2_self (Nat.pow_le_pow_right (by omega) (by omega))
    have hle : roundDiv num (2 ^ s) ≤ 2 ^ 53 := by
      simp only [roundDiv]
      split <;> omega
    rcases Nat.lt_or_eq_of_le hle with hq | hq
    · refine Nat.dvd_trans (Nat.pow_dvd_pow 2 ?_) (Nat.dvd_mul_left ..)
      by_cases h0 : roundDiv num (2 ^ s) * 2 ^ s = 0
      · rw [h0]; simp
      · have : (roundDiv num (2 ^ s) * 2 ^ s).log2 < s + 53 := by
          rw [Nat.log2_lt h0, Nat.add_comm, Nat.pow_add]
          exact Nat.mul_lt_mul_of_pos_right hq (Nat.two_pow_pos s)
        omega
    · rw [hq, ← Nat.pow_add, Nat.log2_two_pow]
      exact Nat.pow_dvd_pow 2 (by omega)

theorem roundQuanta_le {num : Nat} (hn : num ≠ 0) : roundQuanta num 1 ≤ 2 * num := by
  simp only [roundQuanta_eq, Nat.div_one, Nat.one_mul]
  have hstep : 2 ^ (num.log2 - 52) ≤ num :=
    le_trans (Nat.pow_le_pow_right (by omega) (by omega)) (Nat.log2_self_le hn)
  generalize 2 ^ (num.log2 - 52) = step at hstep ⊢
  have hq : roundDiv num step ≤ num / step + 1 := by
    simp only [roundDiv]
    split <;> omega
  calc roundDiv num step * step ≤ (num / step + 1) * step := Nat.mul_le_mul_right _ hq
    _ = num / step * step + step := by rw [Nat.add_mul, Nat.one_mul]
    _ ≤ 2 * num := by have := Nat.div_mul_le_self num step; omega

theorem representable_roundQuanta {num : Nat} (hn : num ≠ 0) (h : 2 * num < limit) :
    Representable (roundQuanta num 1) :=
  ⟨lt_of_le_of_lt (roundQuanta_le hn) h, dvd_roundQuanta num⟩

theorem two_mul_lt_limit {n K L : Nat} (h : n < 2 ^ 64) (hL : K + 65 ≤ L) :
    2 * (n * 2 ^ K) < 2 ^ L := by
  calc 2 * (n * 2 ^ K) < 2 * (2 ^ 64 * 2 ^ K) :=
        Nat.mul_lt_mul_of_pos_left (Nat.mul_lt_mul_of_pos_right h (Nat.two_pow_pos K)) (by omega)
    _ = 2 ^ (K + 65) := by rw [← Nat.pow_add, ← Nat.pow_succ']; congr 1; omega
    _ ≤ 2 ^ L := Nat.pow_le_pow_right (by omega) hL

/-! ## Reading sees only the value of a decimal -/

theorem two_pow_le_ten_pow (n : Nat) : 2 ^ (3 * n) ≤ 10 ^ n := by
  rw [Nat.pow_mul]; exact Nat.pow_le_pow_left (by omega) n

theorem ofDecimal_large (negative : Bool) {digits e : Nat} (hd : digits ≠ 0) (he : 400 < e) :
    ofQuotient negative (digits * 10 ^ e * quantaPerUnit) 1 = .infinite negative := by
  refine ofQuotient_large negative ?_
  have h1 : 2 ^ 1024 ≤ 10 ^ e := by
    refine le_trans ?_ (two_pow_le_ten_pow e)
    exact Nat.pow_le_pow_right (by omega) (by omega)
  have h2 : 10 ^ e ≤ digits * 10 ^ e := Nat.le_mul_of_pos_left _ (by omega)
  calc limit = 2 ^ 1024 * 2 ^ 1074 := by rw [← Nat.pow_add, limit_eq]
    _ ≤ digits * 10 ^ e * quantaPerUnit := by
      rw [quantaPerUnit_eq]
      exact Nat.mul_le_mul_right _ (le_trans h1 h2)

theorem ofDecimal_small (negative : Bool) {digits e : Nat} (he : digits.log2 + 402 ≤ e) :
    ofQuotient negative (digits * quantaPerUnit) (10 ^ e) = zero negative := by
  refine ofQuotient_small negative ?_
  have h1 : digits < 10 ^ (digits.log2 + 1) := by
    refine lt_of_lt_of_le Nat.lt_log2_self ?_
    exact Nat.pow_le_pow_left (by omega) _
  have h2 : 2 * quantaPerUnit ≤ 10 ^ 401 := by
    refine le_trans ?_ (two_pow_le_ten_pow 401)
    rw [quantaPerUnit_eq, ← Nat.pow_succ']
    exact Nat.pow_le_pow_right (by omega) (by omega)
  calc 2 * (digits * quantaPerUnit) = digits * (2 * quantaPerUnit) := by ring
    _ < 10 ^ (digits.log2 + 1) * 10 ^ 401 :=
      Nat.mul_lt_mul_of_lt_of_le h1 h2 (by positivity)
    _ ≤ 10 ^ e := by
      rw [← Nat.pow_add]; exact Nat.pow_le_pow_right (by omega) (by omega)

/-- The decimal as one quotient over `10 ^ K`, for any `K` that clears its exponent. -/
theorem ofDecimal_eq_ofQuotient (negative : Bool) {digits : Nat} {e : Int} {K n : Nat}
    (hd : digits ≠ 0) (hK : e + K = n) :
    ofDecimal negative digits e = ofQuotient negative (digits * 10 ^ n * quantaPerUnit) (10 ^ K) := by
  have hpos : 0 < 10 ^ K := by positivity
  cases e with
  | ofNat a =>
    have ha : Int.ofNat a = (a : Int) := rfl
    have hn : n = a + K := by omega
    have hscale : digits * 10 ^ n * quantaPerUnit = digits * 10 ^ a * quantaPerUnit * 10 ^ K := by
      rw [hn, Nat.pow_add]; ring
    rw [hscale, show 10 ^ K = 1 * 10 ^ K from (Nat.one_mul _).symm, Nat.one_mul,
      show ofQuotient negative (digits * 10 ^ a * quantaPerUnit * 10 ^ K) (10 ^ K) =
        ofQuotient negative (digits * 10 ^ a * quantaPerUnit) 1 from by
          simpa using ofQuotient_scale negative (digits * 10 ^ a * quantaPerUnit) 1 hpos]
    have hsmall : ¬ (Int.ofNat a + digits.log2 + 1 < -400) := by omega
    by_cases hl : 400 < a
    · have hlarge : (400 : Int) < Int.ofNat a := by omega
      simp only [ofDecimal, hd, if_false, hlarge, if_true, ofDecimal_large negative hd hl]
    · have hlarge : ¬ (400 : Int) < Int.ofNat a := by omega
      simp only [ofDecimal, hd, if_false, hlarge, hsmall, Nat.pow_eq]
  | negSucc a =>
    have hn : K = n + (a + 1) := by
      have := Int.negSucc_eq a
      omega
    have hscale : ofQuotient negative (digits * 10 ^ n * quantaPerUnit) (10 ^ K) =
        ofQuotient negative (digits * quantaPerUnit) (10 ^ (a + 1)) := by
      rw [hn, show digits * 10 ^ n * quantaPerUnit = digits * quantaPerUnit * 10 ^ n from by ring,
        show 10 ^ (n + (a + 1)) = 10 ^ (a + 1) * 10 ^ n from by rw [Nat.pow_add]; ring]
      exact ofQuotient_scale negative _ _ (by positivity)
    rw [hscale]
    have hneg := Int.negSucc_eq a
    have hl : ¬ (400 : Int) < Int.negSucc a := by omega
    by_cases hs : Int.negSucc a + digits.log2 + 1 < -400
    · simp only [ofDecimal, hd, if_false, hl, hs, if_true]
      rw [ofDecimal_small negative (by omega)]
    · simp only [ofDecimal, hd, if_false, hl, hs, Nat.pow_eq]

/-- Two decimals of the same value read as the same double. -/
theorem ofDecimal_congr (negative : Bool) {m m' : Nat} {e e' : Int} (K n n' : Nat) (hm : m ≠ 0)
    (hn : e + K = n) (hn' : e' + K = n') (h : m * 10 ^ n = m' * 10 ^ n') :
    ofDecimal negative m e = ofDecimal negative m' e' := by
  have hm' : m' ≠ 0 := by
    rintro rfl
    rw [Nat.zero_mul] at h
    rcases Nat.mul_eq_zero.1 h with h | h
    · exact hm h
    · exact absurd h (by positivity)
  rw [ofDecimal_eq_ofQuotient negative hm hn, ofDecimal_eq_ofQuotient negative hm' hn', h]

/-- A whole number of at most 64 bits is read as a finite double. -/
theorem isFinite_ofDecimal (negative : Bool) {n : Nat} (h : n < 2 ^ 64) :
    (ofDecimal negative n 0).isFinite = true := by
  by_cases h0 : n = 0
  · simp [ofDecimal, h0, zero, isFinite]
  · have hne : n * quantaPerUnit ≠ 0 := Nat.mul_ne_zero h0 (Nat.two_pow_pos 1074).ne'
    have hr : Representable (roundQuanta (n * quantaPerUnit) 1) :=
      representable_roundQuanta hne (two_mul_lt_limit h (by omega))
    rw [ofDecimal_eq_ofQuotient negative (K := 0) (n := 0) h0 rfl, Nat.pow_zero,
      Nat.mul_one, ofQuotient, dif_pos hr]
    rfl
/-! ## The shortest decimal reads back -/

theorem ofDecimal_sign (negative : Bool) {digits : Nat} {e : Int} {q : Nat} {h : Representable q}
    {sign : Bool} (hd : ofDecimal false digits e = .finite sign q h) :
    ofDecimal negative digits e = .finite negative q h := by
  have key : ∀ num den, ofQuotient false num den = .finite sign q h →
      ofQuotient negative num den = .finite negative q h := by
    intro num den hq
    simp only [ofQuotient] at hq ⊢
    split at hq
    · cases hq; simp_all
    · cases hq
  have zeroCase : zero false = .finite sign q h → zero negative = .finite negative q h := by
    intro hz; simp only [zero] at hz ⊢; cases hz; rfl
  unfold ofDecimal at hd ⊢
  split at hd
  · next h0 => rw [if_pos h0]; exact zeroCase hd
  · next h0 =>
    rw [if_neg h0]
    split at hd
    · cases hd
    · next h1 =>
      rw [if_neg h1]
      split at hd
      · next h2 => rw [if_pos h2]; exact zeroCase hd
      · next h2 =>
        rw [if_neg h2]
        cases e with
        | ofNat a => exact key _ _ hd
        | negSucc a => exact key _ _ hd

theorem readsBack_iff {q : Nat} (h : Representable q) (d : Decimal) :
    readsBack q d = true ↔ ∃ sign, ofDecimal false d.digits d.exponent = .finite sign q h := by
  unfold readsBack
  cases hd : ofDecimal false d.digits d.exponent with
  | finite sign q' h' =>
    simp only [beq_iff_eq, finite.injEq, exists_and_right, exists_eq', true_and]
  | infinite sign => simp

/-- Every digit of a count of quanta: five to the power that two has in a unit. -/
theorem ofDecimal_exact {q K : Nat} (h : Representable q) (hq : q ≠ 0) (hK : quantaPerUnit = 2 ^ K) :
    ofDecimal false (q * 5 ^ K) (-K) = .finite false q h := by
  have hd : q * 5 ^ K ≠ 0 := Nat.mul_ne_zero hq (by positivity)
  have hn : (-K : Int) + K = (0 : Nat) := by omega
  have hten : q * 5 ^ K * 10 ^ 0 * quantaPerUnit = q * 10 ^ K := by
    rw [Nat.pow_zero, Nat.mul_one, hK, Nat.mul_assoc, ← Nat.mul_pow]
  rw [ofDecimal_eq_ofQuotient false hd hn, hten]
  exact ofQuotient_exact false h (by positivity)

theorem readsBack_exactDecimal {q : Nat} (h : Representable q) (hq : q ≠ 0) :
    readsBack q (exactDecimal q) = true := by
  rw [readsBack_iff h]
  exact ⟨false, ofDecimal_exact h hq quantaPerUnit_eq⟩

theorem readsBack_better {tiesUp : Bool} {q num den : Nat} {e : Int} {d : Decimal}
    (h : better tiesUp q num den e = some d) : readsBack q d = true := by
  simp only [better] at h
  split at h
  · next hl hh => cases h; split <;> assumption
  · next hl hh => cases h; assumption
  · next hl hh => cases h; assumption
  · cases h

theorem readsBack_neighbour {tiesUp : Bool} {q count : Nat} {d : Decimal}
    (h : neighbour tiesUp q count = some d) : readsBack q d = true :=
  readsBack_better h

/-- Moving a trailing zero into the exponent keeps what a decimal reads as. -/
theorem readsBack_stripZeros {q : Nat} (hq : Representable q) :
    ∀ (fuel : Nat) (d : Decimal), readsBack q d = true → readsBack q (d.stripZeros fuel) = true
  | 0, d, h => h
  | fuel + 1, d, h => by
    unfold Decimal.stripZeros
    split
    · next hz =>
      apply readsBack_stripZeros hq fuel
      rw [readsBack_iff hq] at h ⊢
      obtain ⟨sign, h⟩ := h
      refine ⟨sign, ?_⟩
      rw [← h]
      have hten : d.digits / 10 * 10 = d.digits := by omega
      have hpos : d.digits / 10 ≠ 0 := by omega
      -- both exponents are cleared by the same power of ten
      obtain ⟨K, n, hn⟩ : ∃ K n : Nat, d.exponent + K = n :=
        ⟨d.exponent.natAbs, (d.exponent + d.exponent.natAbs).toNat, by omega⟩
      refine ofDecimal_congr false K (n + 1) n hpos ?_ hn ?_
      · show d.exponent + 1 + K = (n + 1 : Nat)
        omega
      · rw [Nat.pow_succ', ← Nat.mul_assoc, hten]
    · exact h

theorem readsBack_shortest {q : Nat} (hq : Representable q) (h0 : q ≠ 0) (tiesUp : Bool) :
    readsBack q (shortest tiesUp q) = true := by
  apply readsBack_stripZeros hq
  cases hf : (List.range 17).findSome? fun i => neighbour tiesUp q (i + 1) with
  | none => exact readsBack_exactDecimal hq h0
  | some d =>
    obtain ⟨i, _, hi⟩ := List.exists_of_findSome?_eq_some hf
    exact readsBack_neighbour hi

end Binary64

/-! ## The text of a double -/

namespace Numeral

theorem natOfDigits_eq (cs : List Char) : natOfDigits cs = Nat.ofDigitChars 10 cs 0 := rfl

theorem natOfDigits_append (cs ds : List Char) :
    natOfDigits (cs ++ ds) = natOfDigits cs * 10 ^ ds.length + natOfDigits ds := by
  rw [natOfDigits_eq, Nat.ofDigitChars_append, Nat.ofDigitChars_eq_ofDigitChars_zero, Nat.mul_comm]
  rfl

@[simp] theorem natOfDigits_zeros (n : Nat) : natOfDigits (List.replicate n '0') = 0 := by
  rw [natOfDigits_eq, Nat.ofDigitChars_replicate_zero, Nat.mul_zero]

@[simp] theorem natOfDigits_toDigits (n : Nat) : natOfDigits (Nat.toDigits 10 n) = n := by
  rw [natOfDigits_eq, Nat.ofDigitChars_ten_toDigits]

end Numeral

namespace FloatLayout

open Numeral

def IsPointed (cs : List Char) (negative : Bool) (x : Binary64) : Prop :=
  ∃ whole fraction, cs = whole ++ '.' :: fraction ∧ whole ≠ [] ∧ fraction ≠ [] ∧
    (∀ c ∈ whole, c.isDigit = true) ∧ (∀ c ∈ fraction, c.isDigit = true) ∧
    Numeral.toNumber ⟨negative, whole, some fraction, none⟩ = .float x

theorem toNumber_fraction (negative : Bool) (whole fraction : List Char) :
    Numeral.toNumber ⟨negative, whole, some fraction, none⟩ =
      .float (.ofDecimal negative (natOfDigits (whole ++ fraction)) (-fraction.length)) := by
  simp [Numeral.toNumber, Numeral.isWhole, Numeral.toBinary64]

theorem isDigit_figures (d : Decimal) : ∀ c ∈ d.figures, c.isDigit = true := fun _ hc =>
  Nat.isDigit_of_mem_toDigits (by omega) (by omega) hc

theorem length_figures_pos (d : Decimal) : 0 < d.figures.length := Nat.length_toDigits_pos

theorem isDigit_zeros {n : Nat} : ∀ c ∈ List.replicate n '0', c.isDigit = true := by
  intro c hc
  rw [List.eq_of_mem_replicate hc]
  decide

section
variable (negative : Bool) {d : Decimal} {q : Nat} {h : Binary64.Representable q}

theorem isPointed_whole (hd : d.digits ≠ 0)
    (hx : Binary64.ofDecimal negative d.digits d.exponent = .finite negative q h)
    {k : Nat} (hk : d.exponent + (d.figures.length - 1 : Nat) = k) (hle : d.figures.length ≤ k + 1) :
    IsPointed (d.figures ++ List.replicate (k + 1 - d.figures.length) '0' ++
      ['.', '0']) negative (.finite negative q h) := by
  have hlen := length_figures_pos d
  have hval : natOfDigits d.figures = d.digits := natOfDigits_toDigits _
  refine ⟨_, ['0'], rfl, ?_, by simp, ?_, by simp, ?_⟩
  · exact List.append_ne_nil_of_left_ne_nil (List.length_pos_iff.1 hlen) _
  · intro c hc
    rcases List.mem_append.1 hc with hc | hc
    · exact isDigit_figures d c hc
    · exact isDigit_zeros c hc
  · have hnat : natOfDigits (d.figures ++ List.replicate (k + 1 - d.figures.length) '0' ++ ['0']) =
        d.digits * 10 ^ (k + 2 - d.figures.length) := by
      rw [natOfDigits_append, natOfDigits_append, hval, natOfDigits_zeros, Nat.add_zero,
        List.length_replicate, show natOfDigits ['0'] = 0 from rfl, Nat.add_zero,
        show ['0'].length = 1 from rfl, Nat.mul_assoc, ← Nat.pow_add]
      congr 2
      omega
    rw [toNumber_fraction, hnat, ← hx]
    congr 1
    exact Binary64.ofDecimal_congr negative 1 0 (k + 2 - d.figures.length)
      (Nat.mul_ne_zero hd (by positivity)) (by simp) (by omega) (by simp)

theorem isPointed_inside (hx : Binary64.ofDecimal negative d.digits d.exponent = .finite negative q h)
    {k : Nat} (hk : d.exponent + (d.figures.length - 1 : Nat) = k) (hlt : k + 1 < d.figures.length) :
    IsPointed (d.figures.take (k + 1) ++ '.' :: d.figures.drop (k + 1)) negative
    (.finite negative q h) := by
  have hval : natOfDigits d.figures = d.digits := natOfDigits_toDigits _
  refine ⟨_, _, rfl, ?_, ?_, ?_, ?_, ?_⟩
  · rw [← List.length_pos_iff, List.length_take]
    omega
  · rw [← List.length_pos_iff, List.length_drop]
    omega
  · exact fun c hc => isDigit_figures d c (List.mem_of_mem_take hc)
  · exact fun c hc => isDigit_figures d c (List.mem_of_mem_drop hc)
  · rw [toNumber_fraction, List.take_append_drop, hval, List.length_drop,
      show (-(d.figures.length - (k + 1) : Nat) : Int) = d.exponent by omega, hx]

theorem isPointed_below (hx : Binary64.ofDecimal negative d.digits d.exponent = .finite negative q h)
    {k : Nat} (hk : d.exponent + (d.figures.length - 1 : Nat) = Int.negSucc k) :
    IsPointed ('0' :: '.' :: (List.replicate k '0' ++ d.figures)) negative (.finite negative q h) := by
  have hlen := length_figures_pos d
  have hval : natOfDigits d.figures = d.digits := natOfDigits_toDigits _
  have hneg := Int.negSucc_eq k
  refine ⟨['0'], _, rfl, by simp, ?_, by simp, ?_, ?_⟩
  · exact List.append_ne_nil_of_right_ne_nil _ (List.length_pos_iff.1 hlen)
  · intro c hc
    rcases List.mem_append.1 hc with hc | hc
    · exact isDigit_zeros c hc
    · exact isDigit_figures d c hc
  · rw [toNumber_fraction, natOfDigits_append, natOfDigits_append, natOfDigits_zeros, hval,
      show natOfDigits ['0'] = 0 from rfl, Nat.zero_mul, Nat.zero_add, Nat.zero_mul, Nat.zero_add,
      List.length_append, List.length_replicate,
      show (-(k + d.figures.length : Nat) : Int) = d.exponent by omega, hx]

theorem isPointed_pointed (hd : d.digits ≠ 0)
    (hx : Binary64.ofDecimal negative d.digits d.exponent = .finite negative q h) :
    IsPointed (pointed d.figures d.leading) negative (.finite negative q h) := by
  cases hk : d.leading with
  | ofNat k =>
    rw [pointed]
    by_cases hle : d.figures.length ≤ k + 1
    · rw [if_pos hle, List.take_of_length_le hle]
      exact isPointed_whole negative hd hx hk hle
    · rw [if_neg hle, Nat.sub_eq_zero_of_le (by omega), List.replicate_zero, List.append_nil]
      exact isPointed_inside negative hx hk (by omega)
  | negSucc k => exact isPointed_below negative hx hk

end

/-- A layout without exponents writes a finite double so that its digits read back as it. -/
theorem isPointed_text {layout : FloatLayout} (hl : ∀ k, layout.positional k = true) {x : Binary64}
    (hx : x.isFinite = true) : ∃ negative cs, IsPointed cs negative x ∧
      (layout.text x).toList = if negative then '-' :: cs else cs := by
  cases x with
  | infinite negative => cases hx
  | finite negative q h =>
    refine ⟨negative,
      if q = 0 then ['0', '.', '0'] else layout.write (Binary64.shortest layout.tiesUp q),
      ?_, by simp only [text, String.toList_ofList]⟩
    split
    · next h0 =>
      subst h0
      refine ⟨['0'], ['0'], rfl, by simp, by simp, by simp, by simp, ?_⟩
      simp [toNumber_fraction, natOfDigits, Binary64.ofDecimal, Binary64.zero]
    · next h0 =>
      have hb := Binary64.readsBack_shortest h h0 layout.tiesUp
      obtain ⟨sign, hs⟩ := (Binary64.readsBack_iff h _).1 hb
      have hd : (Binary64.shortest layout.tiesUp q).digits ≠ 0 := by
        intro hz
        rw [hz] at hs
        simp only [Binary64.ofDecimal, if_true, Binary64.zero, Binary64.finite.injEq] at hs
        exact h0 hs.2.symm
      simp only [write, hl, if_true]
      exact isPointed_pointed negative hd (Binary64.ofDecimal_sign negative hs)

end FloatLayout

end Worldbook
