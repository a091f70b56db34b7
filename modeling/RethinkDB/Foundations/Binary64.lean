import Mathlib.Data.Rat.Defs
import Mathlib.Algebra.Order.Field.Basic
import Mathlib.Algebra.Order.Field.Rat
import Mathlib.Tactic.Linarith
import Mathlib.Tactic.Positivity
import Mathlib.Tactic.Ring
import Mathlib.Data.Nat.Bitwise

/-!
# IEEE 754 binary64 words

A `double` is a 64-bit word: the sign in bit 63, an 11-bit biased exponent in bits 52
to 62 and a 52-bit fraction below.  A biased exponent of `0` is a zero or subnormal,
`fraction * 2 ^ -1074`; `1` to `2046` is normal, `(2 ^ 52 + fraction) * 2 ^ (e - 1075)`;
`2047` is an infinity or a NaN.

Comparison of finite doubles is comparison of their values, with `-0.0 == 0.0`.  The
central fact here is that this order is the unsigned order of the word after the
classical key transformation: flip every bit of a negative word, flip only the sign bit
of a non-negative one (`orderKey_lt_iff_value_lt`).  It rests on the magnitude being
strictly increasing in the low 63 bits (`scaled_lt_scaled`), which is what lets the
exponent field sit above the fraction.
-/

/-- A binary64 word, as the bits a `double` is stored in. -/
structure Binary64 where
  bits : UInt64
  deriving DecidableEq, Repr

namespace Binary64

/-- Bit 63. -/
def signBit (x : Binary64) : Bool := x.bits.toNat / 2 ^ 63 = 1

/-- Bits 0 to 62: the exponent field above the fraction field. -/
def magnitudeBits (x : Binary64) : Nat := x.bits.toNat % 2 ^ 63

/-- The biased exponent, bits 52 to 62. -/
def biasedExponent (x : Binary64) : Nat := x.magnitudeBits / 2 ^ 52

/-- The fraction (trailing significand), bits 0 to 51. -/
def fraction (x : Binary64) : Nat := x.magnitudeBits % 2 ^ 52

/-- Neither an infinity nor a NaN. -/
def IsFinite (x : Binary64) : Prop := x.biasedExponent ≠ 2047

instance (x : Binary64) : Decidable x.IsFinite := inferInstanceAs (Decidable (_ ≠ _))

/-- The word of `-0.0`. -/
def IsNegZero (x : Binary64) : Prop := x.bits = 0x8000000000000000

instance (x : Binary64) : Decidable x.IsNegZero := inferInstanceAs (Decidable (_ = _))

/-- The magnitude of the word whose low 63 bits are `m`, in units of `2 ^ -1074`. -/
def scaled (m : Nat) : Nat :=
  if m / 2 ^ 52 = 0 then m % 2 ^ 52 else (2 ^ 52 + m % 2 ^ 52) * 2 ^ (m / 2 ^ 52 - 1)

/-- The value of a finite word; both zeros have value `0`. -/
def value (x : Binary64) : ℚ :=
  (if x.signBit then -1 else 1) * (scaled x.magnitudeBits : ℚ) / 2 ^ 1074

/-- The key under which unsigned comparison is the order of values: a negative word
with all bits flipped, a non-negative word with its sign bit flipped. -/
def orderKey (x : Binary64) : Nat :=
  if x.signBit then 2 ^ 63 - 1 - x.magnitudeBits else 2 ^ 63 + x.magnitudeBits

/-! ## Splitting a word -/

theorem toNat_lt (x : Binary64) : x.bits.toNat < 2 ^ 64 := x.bits.toNat_lt

theorem magnitudeBits_lt (x : Binary64) : x.magnitudeBits < 2 ^ 63 :=
  Nat.mod_lt _ (by positivity)

/-- A word is its sign bit above its magnitude bits. -/
theorem toNat_eq (x : Binary64) :
    x.bits.toNat = (if x.signBit then 2 ^ 63 else 0) + x.magnitudeBits := by
  have bound := x.toNat_lt
  have split := Nat.div_add_mod x.bits.toNat (2 ^ 63)
  unfold signBit magnitudeBits
  by_cases high : x.bits.toNat / 2 ^ 63 = 1
  · simp only [high, decide_true, if_true] at split ⊢
    omega
  · have low : x.bits.toNat / 2 ^ 63 = 0 := by omega
    simp only [high, decide_false, Bool.false_eq_true, if_false] at split ⊢
    omega

/-- A word is determined by its sign bit and magnitude bits. -/
theorem ext_of_signBit_magnitudeBits {x y : Binary64} (sign : x.signBit = y.signBit)
    (magnitude : x.magnitudeBits = y.magnitudeBits) : x = y := by
  have bits : x.bits.toNat = y.bits.toNat := by rw [toNat_eq, toNat_eq, sign, magnitude]
  cases x
  cases y
  simp only [mk.injEq]
  exact UInt64.toNat_inj.mp bits

/-! ## The magnitude is strictly increasing in the low 63 bits -/

/-- Within one binade the scaled magnitude grows with the fraction; across binades the
largest value of a lower binade stays below the smallest of a higher one. -/
theorem scaled_lt_scaled {m m' : Nat} (lt : m < m') : scaled m < scaled m' := by
  have fractionBound : m % 2 ^ 52 < 2 ^ 52 := Nat.mod_lt _ (by positivity)
  have fractionBound' : m' % 2 ^ 52 < 2 ^ 52 := Nat.mod_lt _ (by positivity)
  have exponentLe : m / 2 ^ 52 ≤ m' / 2 ^ 52 := Nat.div_le_div_right lt.le
  have split := Nat.div_add_mod m (2 ^ 52)
  have split' := Nat.div_add_mod m' (2 ^ 52)
  unfold scaled
  rcases Nat.eq_or_lt_of_le exponentLe with sameExponent | higherExponent
  · -- Same binade: the fractions compare like the words.
    have fractionLt : m % 2 ^ 52 < m' % 2 ^ 52 := by
      rw [sameExponent] at split
      omega
    by_cases subnormal : m / 2 ^ 52 = 0
    · rw [if_pos subnormal, if_pos (sameExponent ▸ subnormal)]
      exact fractionLt
    · rw [if_neg subnormal, if_neg (sameExponent ▸ subnormal), sameExponent]
      exact Nat.mul_lt_mul_of_pos_right (by omega) (by positivity)
  · -- Higher binade: compare against the powers of two bounding each binade.
    have positive' : m' / 2 ^ 52 ≠ 0 := by omega
    rw [if_neg positive']
    have lowerBound : 2 ^ 52 * 2 ^ (m' / 2 ^ 52 - 1) ≤
        (2 ^ 52 + m' % 2 ^ 52) * 2 ^ (m' / 2 ^ 52 - 1) :=
      Nat.mul_le_mul_right _ (by omega)
    by_cases subnormal : m / 2 ^ 52 = 0
    · rw [if_pos subnormal]
      have : 2 ^ 52 ≤ 2 ^ 52 * 2 ^ (m' / 2 ^ 52 - 1) := Nat.le_mul_of_pos_right _ (by positivity)
      omega
    · rw [if_neg subnormal]
      have powers : 2 ^ (m / 2 ^ 52 - 1) * 2 ≤ 2 ^ (m' / 2 ^ 52 - 1) := by
        rw [← Nat.pow_succ]
        exact Nat.pow_le_pow_right (by norm_num) (by omega)
      calc (2 ^ 52 + m % 2 ^ 52) * 2 ^ (m / 2 ^ 52 - 1)
          < 2 ^ 53 * 2 ^ (m / 2 ^ 52 - 1) := Nat.mul_lt_mul_of_pos_right (by omega) (by positivity)
        _ = 2 ^ 52 * (2 ^ (m / 2 ^ 52 - 1) * 2) := by ring
        _ ≤ 2 ^ 52 * 2 ^ (m' / 2 ^ 52 - 1) := Nat.mul_le_mul_left _ powers
        _ ≤ _ := lowerBound

theorem scaled_lt_scaled_iff {m m' : Nat} : scaled m < scaled m' ↔ m < m' := by
  constructor
  · intro lt
    by_contra notLt
    rcases Nat.eq_or_lt_of_le (Nat.not_lt.mp notLt) with same | greater
    · rw [same] at lt
      exact Nat.lt_irrefl _ lt
    · exact Nat.lt_asymm lt (scaled_lt_scaled greater)
  · exact scaled_lt_scaled

theorem scaled_injective {m m' : Nat} (same : scaled m = scaled m') : m = m' := by
  rcases Nat.lt_trichotomy m m' with lt | eq | gt
  · exact absurd same (Nat.ne_of_lt (scaled_lt_scaled lt))
  · exact eq
  · exact absurd same (Nat.ne_of_gt (scaled_lt_scaled gt))

theorem scaled_eq_zero_iff {m : Nat} : scaled m = 0 ↔ m = 0 := by
  constructor
  · intro zero
    by_contra nonzero
    have grows := scaled_lt_scaled (Nat.pos_of_ne_zero nonzero)
    rw [zero] at grows
    exact Nat.not_lt_zero _ grows
  · rintro rfl
    rfl

/-! ## Values and the order key -/

theorem isNegZero_iff (x : Binary64) :
    x.IsNegZero ↔ x.signBit = true ∧ x.magnitudeBits = 0 := by
  have split := toNat_eq x
  unfold IsNegZero
  constructor
  · intro negZero
    have bits : x.bits.toNat = 2 ^ 63 := by rw [negZero]; rfl
    cases sign : x.signBit
    · simp only [sign, Bool.false_eq_true, if_false] at split
      have := x.magnitudeBits_lt
      omega
    · simp only [sign, if_true] at split
      exact ⟨rfl, by omega⟩
  · rintro ⟨sign, zero⟩
    simp only [sign, if_true, zero] at split
    exact UInt64.toNat_inj.mp split

theorem value_of_signBit_false {x : Binary64} (sign : x.signBit = false) :
    x.value = (scaled x.magnitudeBits : ℚ) / 2 ^ 1074 := by
  simp [value, sign]

theorem value_of_signBit_true {x : Binary64} (sign : x.signBit = true) :
    x.value = -((scaled x.magnitudeBits : ℚ) / 2 ^ 1074) := by
  simp [value, sign, neg_div]

theorem orderKey_of_signBit_false {x : Binary64} (sign : x.signBit = false) :
    x.orderKey = 2 ^ 63 + x.magnitudeBits := by
  simp [orderKey, sign]

theorem orderKey_of_signBit_true {x : Binary64} (sign : x.signBit = true) :
    x.orderKey = 2 ^ 63 - 1 - x.magnitudeBits := by
  simp [orderKey, sign]

/-- Exactly the two zeros have value `0`. -/
theorem value_eq_zero_iff (x : Binary64) : x.value = 0 ↔ x.magnitudeBits = 0 := by
  have positive : (0 : ℚ) < 2 ^ 1074 := pow_pos (by norm_num) _
  cases sign : x.signBit
  · rw [value_of_signBit_false sign, div_eq_zero_iff, Nat.cast_eq_zero, scaled_eq_zero_iff]
    simp [positive.ne']
  · rw [value_of_signBit_true sign, neg_eq_zero, div_eq_zero_iff, Nat.cast_eq_zero,
      scaled_eq_zero_iff]
    simp [positive.ne']

theorem value_of_isNegZero {x : Binary64} (negZero : x.IsNegZero) : x.value = 0 :=
  (value_eq_zero_iff x).mpr ((isNegZero_iff x).mp negZero).2

private theorem scaled_div_lt_iff {m m' : Nat} :
    (scaled m : ℚ) / 2 ^ 1074 < (scaled m' : ℚ) / 2 ^ 1074 ↔ m < m' := by
  rw [div_lt_div_iff_of_pos_right (by positivity), Nat.cast_lt, scaled_lt_scaled_iff]

private theorem scaled_div_nonneg (m : Nat) : 0 ≤ (scaled m : ℚ) / 2 ^ 1074 := by
  positivity

private theorem scaled_div_pos {m : Nat} (nonzero : m ≠ 0) : 0 < (scaled m : ℚ) / 2 ^ 1074 := by
  have positive : 0 < scaled m := Nat.pos_of_ne_zero (mt scaled_eq_zero_iff.mp nonzero)
  positivity

/-- **The order key orders values.**  Apart from `-0.0`, whose key sits just below that
of `0.0`, comparing keys as unsigned numbers is comparing the values of the words. -/
theorem orderKey_lt_iff_value_lt {x y : Binary64} (notNegZero : ¬x.IsNegZero) :
    x.orderKey < y.orderKey ↔ x.value < y.value := by
  have boundX := x.magnitudeBits_lt
  have boundY := y.magnitudeBits_lt
  rw [isNegZero_iff] at notNegZero
  cases signX : x.signBit <;> cases signY : y.signBit
  · -- Both non-negative.
    rw [value_of_signBit_false signX, value_of_signBit_false signY, scaled_div_lt_iff,
      orderKey_of_signBit_false signX, orderKey_of_signBit_false signY]
    omega
  · -- A non-negative word against a negative one.
    rw [value_of_signBit_false signX, value_of_signBit_true signY,
      orderKey_of_signBit_false signX, orderKey_of_signBit_true signY]
    have := scaled_div_nonneg x.magnitudeBits
    have := scaled_div_nonneg y.magnitudeBits
    constructor
    · omega
    · intro lt
      linarith
  · -- A negative word, other than `-0.0`, against a non-negative one.
    have nonzero : x.magnitudeBits ≠ 0 := fun zero => notNegZero ⟨signX, zero⟩
    rw [value_of_signBit_true signX, value_of_signBit_false signY,
      orderKey_of_signBit_true signX, orderKey_of_signBit_false signY]
    have := scaled_div_pos nonzero
    have := scaled_div_nonneg y.magnitudeBits
    constructor
    · intro _
      linarith
    · intro _
      omega
  · -- Both negative: the larger magnitude is the smaller value.
    rw [value_of_signBit_true signX, value_of_signBit_true signY, neg_lt_neg_iff,
      scaled_div_lt_iff, orderKey_of_signBit_true signX, orderKey_of_signBit_true signY]
    omega

/-- Keys tell words apart. -/
theorem orderKey_injective {x y : Binary64} (same : x.orderKey = y.orderKey) : x = y := by
  have boundX := x.magnitudeBits_lt
  have boundY := y.magnitudeBits_lt
  cases signX : x.signBit <;> cases signY : y.signBit
  · rw [orderKey_of_signBit_false signX, orderKey_of_signBit_false signY] at same
    exact ext_of_signBit_magnitudeBits (signX.trans signY.symm) (by omega)
  · rw [orderKey_of_signBit_false signX, orderKey_of_signBit_true signY] at same
    omega
  · rw [orderKey_of_signBit_true signX, orderKey_of_signBit_false signY] at same
    omega
  · rw [orderKey_of_signBit_true signX, orderKey_of_signBit_true signY] at same
    exact ext_of_signBit_magnitudeBits (signX.trans signY.symm) (by omega)

/-- Apart from `-0.0`, words of equal value are equal. -/
theorem eq_of_value_eq {x y : Binary64} (notNegZeroX : ¬x.IsNegZero)
    (notNegZeroY : ¬y.IsNegZero) (same : x.value = y.value) : x = y := by
  apply orderKey_injective
  rcases Nat.lt_trichotomy x.orderKey y.orderKey with lt | eq | gt
  · rw [orderKey_lt_iff_value_lt notNegZeroX, same] at lt
    exact absurd lt (lt_irrefl _)
  · exact eq
  · rw [orderKey_lt_iff_value_lt notNegZeroY, same] at gt
    exact absurd gt (lt_irrefl _)

theorem orderKey_lt (x : Binary64) : x.orderKey < 2 ^ 64 := by
  have := x.magnitudeBits_lt
  unfold orderKey
  split <;> omega

/-! ## The word operations of the key transformation

On the word itself the transformation is `~bits` for a negative word and
`bits ^ (1 << 63)` otherwise, with the sign read off as `bits & (1 << 63)`. -/

/-- `fabs`: the word with its sign bit cleared. -/
def abs (x : Binary64) : Binary64 := ⟨x.bits &&& 0x7FFFFFFFFFFFFFFF⟩

theorem topBit_toNat : ((1 : UInt64) <<< 63).toNat = 2 ^ 63 := by decide

theorem abs_toNat (x : Binary64) : x.abs.bits.toNat = x.magnitudeBits := by
  have mask : (0x7FFFFFFFFFFFFFFF : UInt64).toNat = 2 ^ 63 - 1 := by decide
  rw [abs, UInt64.toNat_and, mask, Nat.and_two_pow_sub_one_eq_mod]
  rfl

@[simp] theorem signBit_abs (x : Binary64) : x.abs.signBit = false := by
  have := x.magnitudeBits_lt
  simp only [signBit, abs_toNat, Nat.div_eq_of_lt this]
  decide

@[simp] theorem magnitudeBits_abs (x : Binary64) : x.abs.magnitudeBits = x.magnitudeBits := by
  rw [magnitudeBits, abs_toNat, Nat.mod_eq_of_lt x.magnitudeBits_lt]

theorem signBit_eq_testBit (x : Binary64) : x.signBit = x.bits.toNat.testBit 63 := by
  have bound := x.toNat_lt
  have : x.bits.toNat / 2 ^ 63 < 2 := by omega
  rw [signBit, Nat.testBit_eq_decide_div_mod_eq, Nat.mod_eq_of_lt this]

theorem value_abs_eq_zero_iff (x : Binary64) : x.abs.value = 0 ↔ x.value = 0 := by
  rw [value_eq_zero_iff, value_eq_zero_iff, magnitudeBits_abs]

theorem abs_not_isNegZero (x : Binary64) : ¬x.abs.IsNegZero := by
  simp [isNegZero_iff]

/-- The sign test of the source. -/
theorem and_topBit_ne_zero_iff (x : Binary64) :
    x.bits &&& ((1 : UInt64) <<< 63) ≠ 0 ↔ x.signBit = true := by
  rw [ne_eq, ← UInt64.toNat_inj, UInt64.toNat_and, topBit_toNat, Nat.and_two_pow,
    signBit_eq_testBit]
  cases x.bits.toNat.testBit 63 <;> simp

/-- A negative word, complemented, is its order key. -/
theorem not_toNat_of_signBit {x : Binary64} (sign : x.signBit = true) :
    (~~~x.bits).toNat = x.orderKey := by
  have split := toNat_eq x
  rw [sign, if_pos rfl] at split
  rw [UInt64.toNat_not, orderKey_of_signBit_true sign, split]
  simp only [UInt64.size]
  omega

/-- A non-negative word with its sign bit flipped is its order key. -/
theorem xor_topBit_toNat_of_signBit {x : Binary64} (sign : x.signBit = false) :
    (x.bits ^^^ ((1 : UInt64) <<< 63)).toNat = x.orderKey := by
  have split := toNat_eq x
  rw [sign] at split
  simp only [Bool.false_eq_true, if_false, Nat.zero_add] at split
  rw [UInt64.toNat_xor, topBit_toNat, orderKey_of_signBit_false sign, split]
  have small := x.magnitudeBits_lt
  -- Below bit 63 the flip changes nothing; bit 63 is clear in the magnitude.
  apply Nat.eq_of_testBit_eq
  intro i
  rw [Nat.testBit_xor, Nat.testBit_two_pow]
  rcases Nat.lt_trichotomy i 63 with below | same | above
  · rw [Nat.testBit_two_pow_add_gt below]
    simp [show 63 ≠ i by omega]
  · subst same
    rw [Nat.testBit_two_pow_add_eq, Nat.testBit_lt_two_pow small]
    simp
  · have total : 2 ^ 63 + x.magnitudeBits < 2 ^ i := by
      have : 2 ^ 64 ≤ 2 ^ i := Nat.pow_le_pow_right (by norm_num) (by omega)
      omega
    rw [Nat.testBit_lt_two_pow total,
      Nat.testBit_lt_two_pow (lt_of_lt_of_le small (Nat.pow_le_pow_right (by norm_num) (by omega)))]
    simp [show 63 ≠ i by omega]

/-- The whole transformation as the source writes it on the word. -/
theorem toNat_flip (x : Binary64) :
    (if x.bits &&& ((1 : UInt64) <<< 63) ≠ 0 then ~~~x.bits
      else x.bits ^^^ ((1 : UInt64) <<< 63)).toNat = x.orderKey := by
  by_cases sign : x.signBit = true
  · rw [if_pos ((and_topBit_ne_zero_iff x).mpr sign), not_toNat_of_signBit sign]
  · rw [if_neg (fun test => sign ((and_topBit_ne_zero_iff x).mp test)),
      xor_topBit_toNat_of_signBit (by simpa using sign)]

end Binary64
