import Mathlib

/-!
# Base-128 numbers

A number in base 128, least significant digit first, one digit to a byte, with bit 7 set on
every byte but the last: the variable-length integers of many archive formats.  `encode` writes
the digits of a number, `length` counts them, and `decode` reads a number back, stopping at the
first byte without bit 7 so that what follows the number is left alone.

`encode` and `length` take a bound on the number of digits, so that they are structural and
compute; `128 ^ fuel` above the number is enough, and more changes nothing.
-/

namespace Base128

/-- The digits of `n`, at most `fuel` of them: `n` itself below `128`, else its low seven bits
with bit 7 set, then the digits of `n / 128`. -/
def encode : Nat → Nat → List UInt8
  | 0, _ => []
  | fuel + 1, n =>
    if n < 128 then [n.toUInt8] else (n % 128 + 128).toUInt8 :: encode fuel (n / 128)

/-- The number of digits of `n`, at most `fuel`. -/
def length : Nat → Nat → Nat
  | 0, _ => 0
  | fuel + 1, n => if n < 128 then 1 else length fuel (n / 128) + 1

/-- The number whose digits start `bytes`, and the bytes after its last digit. -/
def decode : List UInt8 → Option (Nat × List UInt8)
  | [] => none
  | b :: rest =>
    if b.toNat < 128 then some (b.toNat, rest)
    else (decode rest).map fun (n, after) => (b.toNat - 128 + 128 * n, after)

variable {fuel n : Nat}

theorem encode_of_lt (small : n < 128) : encode (fuel + 1) n = [n.toUInt8] := if_pos small

theorem encode_of_ge (large : 128 ≤ n) :
    encode (fuel + 1) n = (n % 128 + 128).toUInt8 :: encode fuel (n / 128) :=
  if_neg (Nat.not_lt.mpr large)

/-- One more digit of room is needed for each division by `128`. -/
theorem div_lt_of_lt_pow (fits : n < 128 ^ (fuel + 1)) : n / 128 < 128 ^ fuel := by
  rw [Nat.pow_succ] at fits
  omega

/-- A number of two digits or more needs room for two. -/
theorem exists_succ_of_ge (large : 128 ≤ n) (fits : n < 128 ^ (fuel + 1)) :
    ∃ fuel', fuel = fuel' + 1 := by
  cases fuel with
  | zero => simp at fits; omega
  | succ fuel => exact ⟨fuel, rfl⟩

theorem length_encode : ∀ fuel n, (encode fuel n).length = length fuel n
  | 0, _ => rfl
  | fuel + 1, n => by
    by_cases small : n < 128
    · rw [encode_of_lt small, length, if_pos small]
      rfl
    · rw [encode_of_ge (Nat.le_of_not_lt small), length, if_neg small, List.length_cons,
        length_encode fuel]

/-- The digits of a number that has room for them read back as the number, whatever follows. -/
theorem decode_encode : ∀ {fuel n : Nat}, n < 128 ^ (fuel + 1) → ∀ rest : List UInt8,
    decode (encode (fuel + 1) n ++ rest) = some (n, rest)
  | fuel, n, fits, rest => by
    by_cases small : n < 128
    · have digit : n.toUInt8.toNat = n := by
        rw [Nat.toUInt8, UInt8.toNat_ofNat', Nat.mod_eq_of_lt (by omega)]
      rw [encode_of_lt small, List.singleton_append, decode, digit, if_pos small]
    · have digit : (n % 128 + 128).toUInt8.toNat = n % 128 + 128 := by
        rw [Nat.toUInt8, UInt8.toNat_ofNat', Nat.mod_eq_of_lt (by omega)]
      obtain ⟨fuel, rfl⟩ := exists_succ_of_ge (Nat.le_of_not_lt small) fits
      rw [encode_of_ge (Nat.le_of_not_lt small), List.cons_append, decode, digit,
        if_neg (by omega), decode_encode (div_lt_of_lt_pow fits) rest]
      simp only [Option.map_some]
      congr 2
      omega

/-- Room for more digits than a number has changes nothing. -/
theorem encode_eq_of_lt : ∀ {fuel fuel' n : Nat}, n < 128 ^ (fuel + 1) →
    n < 128 ^ (fuel' + 1) → encode (fuel + 1) n = encode (fuel' + 1) n
  | fuel, fuel', n, fits, fits' => by
    by_cases small : n < 128
    · rw [encode_of_lt small, encode_of_lt small]
    · have large := Nat.le_of_not_lt small
      obtain ⟨fuel, rfl⟩ := exists_succ_of_ge large fits
      obtain ⟨fuel', rfl⟩ := exists_succ_of_ge large fits'
      rw [encode_of_ge large, encode_of_ge large,
        encode_eq_of_lt (div_lt_of_lt_pow fits) (div_lt_of_lt_pow fits')]

/-- A number has at least one digit. -/
theorem encode_ne_nil : encode (fuel + 1) n ≠ [] := by
  by_cases small : n < 128
  · simp [encode_of_lt small]
  · simp [encode_of_ge (Nat.le_of_not_lt small)]

end Base128
