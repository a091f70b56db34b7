import Mathlib

/-!
# Little-endian words

An unsigned integer of a fixed width, sent raw over the wire, is its bytes least
significant first, as a little-endian machine stores it.  Reading the bytes back gives the
number modulo `256 ^ width`, and any number below that bound exactly.
-/

namespace LittleEndian

/-- The `width` low bytes of `n`, least significant first. -/
def toBytes : Nat → Nat → List UInt8
  | 0, _ => []
  | width + 1, n => (n % 256).toUInt8 :: toBytes width (n / 256)

/-- The number whose bytes, least significant first, are `bytes`. -/
def ofBytes : List UInt8 → Nat
  | [] => 0
  | b :: rest => b.toNat + 256 * ofBytes rest

@[simp] theorem length_toBytes (width n : Nat) : (toBytes width n).length = width := by
  induction width generalizing n with
  | zero => rfl
  | succ width ih => simp [toBytes, ih]

theorem ofBytes_toBytes (width n : Nat) : ofBytes (toBytes width n) = n % 256 ^ width := by
  induction width generalizing n with
  | zero => simp [toBytes, ofBytes, Nat.mod_one]
  | succ width ih =>
      have low : ((n % 256).toUInt8).toNat = n % 256 := by
        simp [Nat.mod_mod_of_dvd]
      rw [toBytes, ofBytes, low, ih, Nat.pow_succ', Nat.mod_mul]

theorem ofBytes_lt (bytes : List UInt8) : ofBytes bytes < 256 ^ bytes.length := by
  induction bytes with
  | nil => simp [ofBytes]
  | cons b rest ih =>
      have byte := b.toNat_lt
      rw [ofBytes, List.length_cons, Nat.pow_succ']
      change b.toNat < 256 at byte
      omega

/-- A number below `256 ^ width` comes back whole. -/
theorem ofBytes_toBytes_of_lt {width n : Nat} (small : n < 256 ^ width) :
    ofBytes (toBytes width n) = n := by
  rw [ofBytes_toBytes, Nat.mod_eq_of_lt small]

example : toBytes 2 0x1234 = [0x34, 0x12] := by decide

end LittleEndian
