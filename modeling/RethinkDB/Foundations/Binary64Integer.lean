import RethinkDB.Foundations.Binary64
import Mathlib.Algebra.Ring.Rat
import Mathlib.Algebra.Order.Ring.Cast
import Mathlib.Data.Nat.Cast.Order.Field

/-!
# Integers in binary64

A `double` holds every integer of magnitude at most `2 ^ 53` exactly: the leading one of
the integer becomes the implicit bit, the bits below it the fraction, shifted up to 52
places, and its position the exponent.  `ofNatExact` is that conversion; `neg` flips the
sign bit, which is what unary minus does to a word; `truncate` is the conversion of a value
to an integer, towards zero.

The conversion is exact up to `2 ^ 53`.  Above, the fraction drops the low bits, which is
rounding towards zero; for `2 ^ 53 + 1`, half-way between `2 ^ 53` and `2 ^ 53 + 2`, it gives
`2 ^ 53`, as round-to-nearest-even does.
-/

namespace Binary64

/-- The word of the natural number `n`, exact for `n ≤ 2 ^ 53`. -/
def ofNatExact (n : Nat) : Binary64 :=
  if n = 0 then ⟨0⟩
  else ⟨((n.log2 + 1023) * 2 ^ 52 + n * 2 ^ 52 / 2 ^ n.log2 % 2 ^ 52).toUInt64⟩

/-- Unary minus: the word with its sign bit flipped. -/
def neg (x : Binary64) : Binary64 := ⟨x.bits ^^^ ((1 : UInt64) <<< 63)⟩

/-- The integer `i` as a double, exact for `|i| ≤ 2 ^ 53`. -/
def ofIntExact (i : Int) : Binary64 :=
  if i < 0 then (ofNatExact i.natAbs).neg else ofNatExact i.natAbs

/-- Truncation of a value towards zero, as a conversion to an integer type does. -/
def truncate (q : ℚ) : Int := q.num.tdiv q.den

/-! ## The word of an integer -/

section OfNat

variable {n : Nat}

/-- The significand of `n` with its leading one at bit 52. -/
theorem significand_eq (nonzero : n ≠ 0) (le : n ≤ 2 ^ 53) :
    2 ^ 52 + n * 2 ^ 52 / 2 ^ n.log2 % 2 ^ 52 = n * 2 ^ 52 / 2 ^ n.log2 ∧
      n * 2 ^ 52 / 2 ^ n.log2 * 2 ^ n.log2 = n * 2 ^ 52 := by
  have lower := Nat.log2_self_le nonzero
  have upper : n < 2 ^ (n.log2 + 1) := Nat.lt_log2_self
  have top : n.log2 ≤ 53 := by
    by_contra above
    have : 2 ^ 54 ≤ 2 ^ n.log2 := Nat.pow_le_pow_right (by norm_num) (by omega)
    omega
  rcases Nat.lt_or_ge n.log2 53 with inside | boundary
  · -- Below `2 ^ 53` the shift by `52 - log2 n` is exact and lands in `[2 ^ 52, 2 ^ 53)`.
    have split : 2 ^ 52 = 2 ^ (52 - n.log2) * 2 ^ n.log2 := by
      rw [← Nat.pow_add]
      congr 1
      omega
    have quotient : n * 2 ^ 52 / 2 ^ n.log2 = n * 2 ^ (52 - n.log2) := by
      rw [split, ← Nat.mul_assoc, Nat.mul_div_cancel _ (by positivity)]
    have below : n * 2 ^ (52 - n.log2) < 2 ^ 53 := by
      have := Nat.mul_lt_mul_of_pos_right upper (show 0 < 2 ^ (52 - n.log2) by positivity)
      rwa [← Nat.pow_add, show n.log2 + 1 + (52 - n.log2) = 53 by omega] at this
    have above : 2 ^ 52 ≤ n * 2 ^ (52 - n.log2) := by
      have := Nat.mul_le_mul_right (2 ^ (52 - n.log2)) lower
      rwa [← Nat.pow_add, show n.log2 + (52 - n.log2) = 52 by omega] at this
    rw [quotient]
    refine ⟨by omega, ?_⟩
    rw [Nat.mul_assoc, ← split]
  · -- The boundary `n = 2 ^ 53`: the significand is `2 ^ 52`, the fraction empty.
    have exponent : n.log2 = 53 := by omega
    have whole : n = 2 ^ 53 := by
      have : 2 ^ 53 ≤ n := exponent ▸ lower
      omega
    subst whole
    rw [exponent]
    norm_num

theorem ofNatExact_toNat (nonzero : n ≠ 0) (le : n ≤ 2 ^ 53) :
    (ofNatExact n).bits.toNat = (n.log2 + 1023) * 2 ^ 52 + n * 2 ^ 52 / 2 ^ n.log2 % 2 ^ 52 := by
  have top : n.log2 ≤ 53 := by
    have := (Nat.log2_lt nonzero).mpr (show n < 2 ^ 54 by omega)
    omega
  have fraction := Nat.mod_lt (n * 2 ^ 52 / 2 ^ n.log2) (show 0 < 2 ^ 52 by positivity)
  have small : (n.log2 + 1023) * 2 ^ 52 + n * 2 ^ 52 / 2 ^ n.log2 % 2 ^ 52 < 2 ^ 63 := by
    have : (n.log2 + 1023) * 2 ^ 52 ≤ 1076 * 2 ^ 52 := Nat.mul_le_mul_right _ (by omega)
    omega
  rw [ofNatExact, if_neg nonzero, UInt64.toNat_ofNat', Nat.mod_eq_of_lt (by omega)]

@[simp] theorem signBit_ofNatExact (le : n ≤ 2 ^ 53) : (ofNatExact n).signBit = false := by
  by_cases zero : n = 0
  · subst zero
    rfl
  · have fraction := Nat.mod_lt (n * 2 ^ 52 / 2 ^ n.log2) (show 0 < 2 ^ 52 by positivity)
    have top : n.log2 ≤ 53 := by
      have := (Nat.log2_lt zero).mpr (show n < 2 ^ 54 by omega)
      omega
    have : (n.log2 + 1023) * 2 ^ 52 ≤ 1076 * 2 ^ 52 := Nat.mul_le_mul_right _ (by omega)
    simp only [signBit, ofNatExact_toNat zero le]
    rw [Nat.div_eq_of_lt (by omega)]
    decide

theorem magnitudeBits_ofNatExact (nonzero : n ≠ 0) (le : n ≤ 2 ^ 53) :
    (ofNatExact n).magnitudeBits =
      (n.log2 + 1023) * 2 ^ 52 + n * 2 ^ 52 / 2 ^ n.log2 % 2 ^ 52 := by
  have fraction := Nat.mod_lt (n * 2 ^ 52 / 2 ^ n.log2) (show 0 < 2 ^ 52 by positivity)
  have top : n.log2 ≤ 53 := by
    have := (Nat.log2_lt nonzero).mpr (show n < 2 ^ 54 by omega)
    omega
  have : (n.log2 + 1023) * 2 ^ 52 ≤ 1076 * 2 ^ 52 := Nat.mul_le_mul_right _ (by omega)
  rw [magnitudeBits, ofNatExact_toNat nonzero le, Nat.mod_eq_of_lt (by omega)]

theorem biasedExponent_ofNatExact (nonzero : n ≠ 0) (le : n ≤ 2 ^ 53) :
    (ofNatExact n).biasedExponent = n.log2 + 1023 := by
  have fraction := Nat.mod_lt (n * 2 ^ 52 / 2 ^ n.log2) (show 0 < 2 ^ 52 by positivity)
  rw [biasedExponent, magnitudeBits_ofNatExact nonzero le, Nat.mul_comm, Nat.mul_add_div
    (by positivity), Nat.div_eq_of_lt fraction, Nat.add_zero]

theorem isFinite_ofNatExact (le : n ≤ 2 ^ 53) : (ofNatExact n).IsFinite := by
  by_cases zero : n = 0
  · subst zero
    decide
  · have top : n.log2 ≤ 53 := by
      have := (Nat.log2_lt zero).mpr (show n < 2 ^ 54 by omega)
      omega
    unfold IsFinite
    rw [biasedExponent_ofNatExact zero le]
    omega

/-- **Integers up to `2 ^ 53` are exact.** -/
theorem value_ofNatExact (le : n ≤ 2 ^ 53) : (ofNatExact n).value = n := by
  by_cases zero : n = 0
  · subst zero
    simp [ofNatExact, value, scaled, magnitudeBits]
  · obtain ⟨significand, exact⟩ := significand_eq zero le
    have normal : (ofNatExact n).magnitudeBits / 2 ^ 52 = n.log2 + 1023 :=
      biasedExponent_ofNatExact zero le
    have fraction : (ofNatExact n).magnitudeBits % 2 ^ 52 = n * 2 ^ 52 / 2 ^ n.log2 % 2 ^ 52 := by
      rw [magnitudeBits_ofNatExact zero le, Nat.mul_comm, Nat.mul_add_mod]
      exact Nat.mod_mod _ _
    -- The magnitude is the significand times `2 ^ (log2 n + 1022)`, that is `n * 2 ^ 1074`.
    have magnitude : scaled (ofNatExact n).magnitudeBits = n * 2 ^ 1074 := by
      rw [scaled, normal, if_neg (by omega), fraction, significand,
        show n.log2 + 1023 - 1 = n.log2 + 1022 by omega, Nat.pow_add, ← Nat.mul_assoc, exact,
        Nat.mul_assoc, ← Nat.pow_add, show 52 + 1022 = 1074 from rfl]
    rw [value_of_signBit_false (signBit_ofNatExact le), magnitude, Nat.cast_mul, Nat.cast_pow,
      Nat.cast_ofNat, mul_div_cancel_right₀ _ (by positivity)]

theorem ofNatExact_not_isNegZero (le : n ≤ 2 ^ 53) : ¬(ofNatExact n).IsNegZero := by
  rw [isNegZero_iff, signBit_ofNatExact le]
  simp

end OfNat

/-- Words of one sign and one value are equal; the sign tells `-0.0` from `0.0`. -/
theorem eq_of_signBit_value_eq {x y : Binary64} (sign : x.signBit = y.signBit) (same : x.value = y.value) :
    x = y := by
  refine ext_of_signBit_magnitudeBits sign (scaled_injective ?_)
  have scaledSame : (scaled x.magnitudeBits : ℚ) / 2 ^ 1074 = (scaled y.magnitudeBits : ℚ) / 2 ^ 1074 := by
    cases signX : x.signBit
    · rwa [value_of_signBit_false signX, value_of_signBit_false (sign ▸ signX)] at same
    · rwa [value_of_signBit_true signX, value_of_signBit_true (sign ▸ signX), neg_inj] at same
  rw [div_left_inj' (by positivity), Nat.cast_inj] at scaledSame
  exact scaledSame

/-! ## Negation -/

theorem toNat_neg (x : Binary64) :
    (x.neg).bits.toNat = (if x.signBit then 0 else 2 ^ 63) + x.magnitudeBits := by
  have split := toNat_eq x
  have small := x.magnitudeBits_lt
  rw [neg, UInt64.toNat_xor, topBit_toNat, split]
  -- The flip changes bit 63 and leaves the magnitude below it.
  apply Nat.eq_of_testBit_eq
  intro i
  have low : ∀ j, j < 63 → ∀ m, (2 ^ 63 + m).testBit j = m.testBit j := fun j below m =>
    Nat.testBit_two_pow_add_gt below m
  rw [Nat.testBit_xor, Nat.testBit_two_pow]
  cases sign : x.signBit
  · simp only [Bool.false_eq_true, if_false, Nat.zero_add]
    rcases Nat.lt_trichotomy i 63 with below | same | above
    · rw [low i below]
      simp [show 63 ≠ i by omega]
    · subst same
      rw [Nat.testBit_two_pow_add_eq, Nat.testBit_lt_two_pow small]
      simp
    · have total : 2 ^ 63 + x.magnitudeBits < 2 ^ i := by
        have : 2 ^ 64 ≤ 2 ^ i := Nat.pow_le_pow_right (by norm_num) (by omega)
        omega
      rw [Nat.testBit_lt_two_pow total, Nat.testBit_lt_two_pow
        (lt_of_lt_of_le small (Nat.pow_le_pow_right (by norm_num) (by omega)))]
      simp [show 63 ≠ i by omega]
  · simp only [if_true, Nat.zero_add]
    rcases Nat.lt_trichotomy i 63 with below | same | above
    · rw [low i below]
      simp [show 63 ≠ i by omega]
    · subst same
      rw [Nat.testBit_two_pow_add_eq, Nat.testBit_lt_two_pow small]
      simp
    · have total : 2 ^ 63 + x.magnitudeBits < 2 ^ i := by
        have : 2 ^ 64 ≤ 2 ^ i := Nat.pow_le_pow_right (by norm_num) (by omega)
        omega
      rw [Nat.testBit_lt_two_pow total, Nat.testBit_lt_two_pow
        (lt_of_lt_of_le small (Nat.pow_le_pow_right (by norm_num) (by omega)))]
      simp [show 63 ≠ i by omega]

@[simp] theorem signBit_neg (x : Binary64) : x.neg.signBit = !x.signBit := by
  have small := x.magnitudeBits_lt
  rw [signBit, toNat_neg]
  cases x.signBit
  · simp only [Bool.false_eq_true, if_false, Bool.not_false]
    rw [show (2 ^ 63 + x.magnitudeBits) / 2 ^ 63 = 1 by omega]
    decide
  · simp only [if_true, Nat.zero_add, Bool.not_true]
    rw [Nat.div_eq_of_lt small]
    decide

@[simp] theorem magnitudeBits_neg (x : Binary64) : x.neg.magnitudeBits = x.magnitudeBits := by
  have small := x.magnitudeBits_lt
  rw [magnitudeBits, toNat_neg]
  split <;> omega

theorem value_neg (x : Binary64) : x.neg.value = -x.value := by
  unfold value
  rw [signBit_neg, magnitudeBits_neg]
  cases x.signBit <;> simp [neg_div]

theorem isFinite_neg {x : Binary64} (finite : x.IsFinite) : x.neg.IsFinite := by
  unfold IsFinite biasedExponent at *
  rwa [magnitudeBits_neg]

/-! ## Integers of both signs -/

theorem value_ofIntExact {i : Int} (small : i.natAbs ≤ 2 ^ 53) : (ofIntExact i).value = i := by
  unfold ofIntExact
  split
  · rename_i negative
    rw [value_neg, value_ofNatExact small, Nat.cast_natAbs, Int.cast_abs, abs_of_neg
      (by exact_mod_cast negative), neg_neg]
  · rename_i nonneg
    rw [value_ofNatExact small, Nat.cast_natAbs, Int.cast_abs, abs_of_nonneg
      (by exact_mod_cast (not_lt.mp nonneg))]

/-- Truncation does not grow the magnitude. -/
theorem natAbs_truncate_le (q : ℚ) : ((truncate q).natAbs : ℚ) ≤ |q| := by
  unfold truncate
  rw [Int.natAbs_tdiv, Int.natAbs_natCast]
  calc ((q.num.natAbs.div q.den : Nat) : ℚ)
      ≤ (q.num.natAbs : ℚ) / q.den := Nat.cast_div_le
    _ = |q| := by
      have split : |q| = |(q.num : ℚ)| / q.den := by
        conv_lhs => rw [← Rat.num_div_den q]
        rw [abs_div, Nat.abs_cast]
      rw [split, Nat.cast_natAbs, Int.cast_abs]

end Binary64
