import RethinkDB.Foundations.Binary64
import RethinkDB.Foundations.Lexicographic

/-!
# printf conversions

Two conversions of C's `printf`, as bytes:

* `%.{p}x` (and `%.{p}u` in base ten): the digits of an unsigned integer, at least `p` of
  them, padded with leading zeros; lower-case hexadecimal digits.
* `%.{p}g` of a double: the value rounded to `p` significant decimal digits, to nearest
  with ties to even (the default rounding of an exact conversion), written in style `f`
  when the decimal exponent `X` of the rounded value satisfies `-4 ≤ X < p` and in style
  `e` otherwise, with trailing zeros of the fraction and a bare decimal point removed.

Digit strings are built at a fixed width by structural recursion, so the conversions
compute.  The order lemma is the one key encodings need: at a fixed width, digit strings
compare like the numbers they write.
-/

namespace Printf

/-- The ASCII byte of a character. -/
def byteOf (c : Char) : UInt8 := c.toNat.toUInt8

/-- The lower-case ASCII digit of `d < 16`. -/
def digitByte (d : Nat) : UInt8 := if d < 10 then (48 + d).toUInt8 else (87 + d).toUInt8

/-- The last `width` base-`base` digits of `n`, most significant first. -/
def fixedDigits (base : Nat) : Nat → Nat → List Nat
  | 0, _ => []
  | width + 1, n => fixedDigits base width (n / base) ++ [n % base]

/-- The number of base-`base` digits of `n`, none for `0`; `fuel` bounds the count. -/
def digitCount (base : Nat) : Nat → Nat → Nat
  | 0, _ => 0
  | fuel + 1, n => if n = 0 then 0 else digitCount base fuel (n / base) + 1

/-- `%.{precision}x` in base `base`: the digits of `n`, at least `precision` of them. -/
def formatUnsigned (base precision n : Nat) : List UInt8 :=
  (fixedDigits base (max precision (digitCount base n n)) n).map digitByte

/-! ## `%g` -/

/-- `num / den` rounded to an integer, a tie to the even neighbour. -/
def roundHalfEven (num den : Nat) : Nat :=
  let quotient := num / den
  let remainder := num % den
  if 2 * remainder < den then quotient
  else if den < 2 * remainder then quotient + 1
  else if quotient % 2 = 0 then quotient else quotient + 1

/-- `⌊log₁₀ (num / den)⌋` for `num, den > 0`. -/
def decimalExponent (num den : Nat) : Int :=
  if den ≤ num then (digitCount 10 (num / den) (num / den) : Int) - 1
  else -(digitCount 10 ((den - 1) / num) ((den - 1) / num) : Int)

/-- The `precision` significant digits of `num / den > 0`, rounded, as an integer, and
the decimal exponent of the rounded value.  Rounding up to a power of ten moves the
exponent. -/
def significand (precision num den : Nat) : Nat × Int :=
  let exponent := decimalExponent num den
  let shift := (precision : Int) - 1 - exponent
  let digits :=
    if 0 ≤ shift then roundHalfEven (num * 10 ^ shift.toNat) den
    else roundHalfEven num (den * 10 ^ (-shift).toNat)
  if digits = 10 ^ precision then (10 ^ (precision - 1), exponent + 1) else (digits, exponent)

/-- An integral part and a fraction, with the zeros that end the fraction removed, and
the decimal point too when nothing of the fraction is left. -/
def trimFraction (integral fraction : List UInt8) : List UInt8 :=
  let trimmed := (fraction.reverse.dropWhile (· == byteOf '0')).reverse
  if trimmed = [] then integral else integral ++ byteOf '.' :: trimmed

/-- `%.{precision}g` of the non-negative value `num / den`, for `precision ≥ 1`. -/
def formatMagnitude (precision num den : Nat) : List UInt8 :=
  if num = 0 then [byteOf '0']
  else
    let (digits, exponent) := significand precision num den
    let written := (fixedDigits 10 precision digits).map digitByte
    if -4 ≤ exponent ∧ exponent < precision then
      -- style `f` with `precision - 1 - exponent` decimals
      if 0 ≤ exponent then
        trimFraction (written.take (exponent.toNat + 1)) (written.drop (exponent.toNat + 1))
      else trimFraction [byteOf '0'] (List.replicate ((-exponent).toNat - 1) (byteOf '0') ++ written)
    else
      -- style `e`: one digit, the fraction, and an exponent of at least two digits
      let magnitude := exponent.natAbs
      trimFraction (written.take 1) (written.drop 1) ++
        byteOf 'e' :: (if exponent < 0 then byteOf '-' else byteOf '+') ::
          formatUnsigned 10 2 magnitude

/-- `%.{precision}g` of a double; a precision of `0` counts as `1`. -/
def formatG (precision : Nat) (x : Binary64) : List UInt8 :=
  let sign := if x.signBit then [byteOf '-'] else []
  if x.biasedExponent = 2047 then
    sign ++ (if x.fraction = 0 then "inf" else "nan").toList.map byteOf
  else
    sign ++ formatMagnitude (max precision 1) (Binary64.scaled x.magnitudeBits) (2 ^ 1074)

example : formatG 20 ⟨0x3FF0000000000000⟩ = "1".toList.map byteOf := by decide +kernel
example : formatG 20 ⟨0x3FB999999999999A⟩ = "0.10000000000000000555".toList.map byteOf := by
  decide +kernel
example : formatG 20 ⟨0x444B1AE4D6E2EF50⟩ = "1e+21".toList.map byteOf := by decide +kernel
example : formatG 20 ⟨0xC0C81C8000000000⟩ = "-12345".toList.map byteOf := by decide +kernel

/-! ## Fixed-width digit strings -/

@[simp] theorem fixedDigits_length (base width n : Nat) :
    (fixedDigits base width n).length = width := by
  induction width generalizing n with
  | zero => rfl
  | succ width ih => simp [fixedDigits, ih]

theorem digitCount_le {base : Nat} (atLeastTwo : 2 ≤ base) :
    ∀ {fuel width n : Nat}, n < base ^ width → digitCount base fuel n ≤ width
  | 0, _, _, _ => Nat.zero_le _
  | fuel + 1, width, n, bound => by
      unfold digitCount
      split
      · exact Nat.zero_le _
      · rename_i nonzero
        cases width with
        | zero => simp at bound; omega
        | succ width =>
            have : n / base < base ^ width := by
              rw [Nat.div_lt_iff_lt_mul (by omega)]
              simpa [Nat.pow_succ] using bound
            have := @digitCount_le base atLeastTwo fuel _ _ this
            omega

/-- A precision at least the number of digits is the width of the conversion. -/
theorem formatUnsigned_of_lt {base precision n : Nat} (atLeastTwo : 2 ≤ base)
    (bound : n < base ^ precision) :
    formatUnsigned base precision n = (fixedDigits base precision n).map digitByte := by
  rw [formatUnsigned, Nat.max_eq_left (digitCount_le atLeastTwo bound)]

theorem digitByte_lt_digitByte {d d' : Nat} (lt : d < d') (bound : d' < 16) :
    digitByte d < digitByte d' := by
  unfold digitByte
  rw [UInt8.lt_iff_toNat_lt]
  split_ifs <;> simp [Nat.toUInt8, UInt8.toNat_ofNat] <;> omega

/-- At a fixed width, digit strings compare as the numbers they write. -/
theorem lexSign_fixedDigits {base : Nat} (positive : 0 < base) (small : base ≤ 16) :
    ∀ {width n m : Nat}, n < base ^ width → m < base ^ width →
      Bytes.lexSign ((fixedDigits base width n).map digitByte)
        ((fixedDigits base width m).map digitByte) = ((n : Int) - m).sign
  | 0, n, m, boundN, boundM => by
      simp at boundN boundM
      simp [fixedDigits, boundN, boundM]
  | width + 1, n, m, boundN, boundM => by
      have highN : n / base < base ^ width := by
        rw [Nat.div_lt_iff_lt_mul positive]
        simpa [Nat.pow_succ] using boundN
      have highM : m / base < base ^ width := by
        rw [Nat.div_lt_iff_lt_mul positive]
        simpa [Nat.pow_succ] using boundM
      have high := lexSign_fixedDigits positive small highN highM
      have splitN := Nat.div_add_mod n base
      have splitM := Nat.div_add_mod m base
      have lowN := Nat.mod_lt n positive
      have lowM := Nat.mod_lt m positive
      simp only [fixedDigits, List.map_append]
      rw [Bytes.lexSign_append_of_length_eq (by simp)]
      split_ifs with same
      · -- Equal leading digits: the last digit decides.
        rw [same, Bytes.lexSign_eq_zero_iff.mpr rfl, eq_comm, Int.sign_eq_zero_iff_zero] at high
        have equalHigh : n / base = m / base := by omega
        simp only [List.map_cons, List.map_nil]
        rcases Nat.lt_trichotomy (n % base) (m % base) with lt | eq | gt
        · rw [Bytes.lexSign_eq_neg_one_iff.mpr (List.cons_lt_cons_iff.mpr
            (Or.inl (digitByte_lt_digitByte lt (by omega))))]
          symm
          apply Int.sign_eq_neg_one_of_neg
          have : n < m := by nlinarith
          omega
        · have : n = m := by rw [← splitN, ← splitM, equalHigh, eq]
          simp [this, Bytes.lexSign_eq_zero_iff]
        · rw [Bytes.lexSign_eq_one_iff.mpr (List.cons_lt_cons_iff.mpr
            (Or.inl (digitByte_lt_digitByte gt (by omega))))]
          symm
          apply Int.sign_eq_one_of_pos
          have : m < n := by nlinarith
          omega
      · -- Different leading digits decide, and so do the numbers they write.
        rw [high]
        have differ : n / base ≠ m / base := fun equal => same (by rw [equal])
        rcases Nat.lt_or_gt_of_ne differ with lt | gt
        · have : n < m := Nat.lt_of_div_lt_div lt
          rw [Int.sign_eq_neg_one_of_neg (by omega), Int.sign_eq_neg_one_of_neg (by omega)]
        · have : m < n := Nat.lt_of_div_lt_div gt
          rw [Int.sign_eq_one_of_pos (by omega), Int.sign_eq_one_of_pos (by omega)]

end Printf
