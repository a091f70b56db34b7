import RethinkDB.Foundations.Base128
import RethinkDB.Foundations.LittleEndian
import Mathlib.Data.Nat.Bitwise

/-!
# Archive primitives

`containers/archive` writes values onto a `write_message_t` and reads them back from a
`read_stream_t`.  Writing appends bytes, so a serializer here is the list of bytes it
appends.  The streams the datum code reads are `buffer_read_stream_t`s over memory, whose
`read` hands out as many bytes as are asked for and left: such a stream is the list of the
bytes not yet read, and a deserializer returns what it read with the rest of that list, or
the `archive_result_t` it fails with.  A buffer read never fails, so the `SOCK_ERROR`
branches, which only a failed socket read takes, are not reached.

The host is little-endian, as the targets the code builds for are: a raw integer is its
bytes, least significant first.

The varint is where the work is.  `serialize_varint_uint64_into_buf` writes the base-128
digits of a number (`serializeVarintUint64IntoBuf_eq`), as many as
`varint_uint64_serialized_size` counts (`length_serializeVarintUint64IntoBuf`), and
`deserialize_varint_uint64` reads every such number below `2 ^ 64` back, leaving what
follows it alone.  The reader also rejects, rather than truncates, anything that does not
fit 64 bits: whatever it accepts is the number the bytes spell (`decode_of_deserialize`).
-/

namespace RethinkDB
namespace Containers
namespace Archive

/-- `archive_result_t`. -/
inductive ArchiveResult where
  | success
  | sockError
  | sockEof
  | rangeError
  deriving DecidableEq, Repr

/-- `force_read` on a buffer stream: the next `n` bytes, or as many as are left, and the
stream after them. -/
def forceRead (s : List UInt8) (n : Nat) : List UInt8 × List UInt8 := (s.take n, s.drop n)

/-! ## Raw integers -/

/-- `serialize_universal` of an unsigned integer of `width` bytes. -/
def serializeUniversal (width x : Nat) : List UInt8 := LittleEndian.toBytes width x

/-- `deserialize_universal` of an unsigned integer of `width` bytes: `SOCK_EOF` if the stream
holds fewer. -/
def deserializeUniversal (width : Nat) (s : List UInt8) :
    Except ArchiveResult (Nat × List UInt8) :=
  let (bytes, rest) := forceRead s width
  if bytes.length < width then .error .sockEof else .ok (LittleEndian.ofBytes bytes, rest)

/-- A raw integer that fits its width reads back, whatever follows it. -/
theorem deserializeUniversal_serializeUniversal {width x : Nat} (fits : x < 256 ^ width)
    (rest : List UInt8) :
    deserializeUniversal width (serializeUniversal width x ++ rest) = .ok (x, rest) := by
  have written : (LittleEndian.toBytes width x).length = width := LittleEndian.length_toBytes _ _
  simp only [deserializeUniversal, forceRead, serializeUniversal, List.take_left' written,
    List.drop_left' written, written, Nat.lt_irrefl, if_false, LittleEndian.ofBytes_toBytes_of_lt fits]

/-! ## Ranged `int8_t`

`ARCHIVE_PRIM_MAKE_RANGED_SERIALIZABLE(typ1, int8_t, lo, hi)` sends a value as the one byte
of its `int8_t`, and on the way back rejects a byte outside `[lo, hi]` with `RANGE_ERROR`. -/

/-- `serialize` of a type sent as an `int8_t`. -/
def serializeRangedInt8 (v : Int8) : List UInt8 := [v.toUInt8]

/-- `deserialize` of a type sent as an `int8_t` and checked against `[lo, hi]`. -/
def deserializeRangedInt8 (lo hi : Int8) (s : List UInt8) :
    Except ArchiveResult (Int8 × List UInt8) :=
  match forceRead s 1 with
  | ([b], rest) => if b.toInt8 < lo || b.toInt8 > hi then .error .rangeError else .ok (b.toInt8, rest)
  | _ => .error .sockEof

/-- A value inside the range reads back. -/
theorem deserializeRangedInt8_serializeRangedInt8 {lo hi v : Int8} (inside : lo ≤ v ∧ v ≤ hi)
    (rest : List UInt8) :
    deserializeRangedInt8 lo hi (serializeRangedInt8 v ++ rest) = .ok (v, rest) := by
  have below : ¬v < lo := Int8.not_lt.mpr inside.1
  have above : ¬v > hi := Int8.not_lt.mpr inside.2
  simp [deserializeRangedInt8, serializeRangedInt8, forceRead, below, above]

/-- `serialize` of a `bool`: the `int8_t` `0` or `1`. -/
def serializeBool (b : Bool) : List UInt8 := serializeRangedInt8 (if b then 1 else 0)

/-- `deserialize` of a `bool`, on the range `[0, 1]`. -/
def deserializeBool (s : List UInt8) : Except ArchiveResult (Bool × List UInt8) :=
  (deserializeRangedInt8 0 1 s).map fun (v, rest) => (v != 0, rest)

theorem deserializeBool_serializeBool (b : Bool) (rest : List UInt8) :
    deserializeBool (serializeBool b ++ rest) = .ok (b, rest) := by
  cases b <;>
  · simp only [deserializeBool, serializeBool]
    rw [deserializeRangedInt8_serializeRangedInt8 (by decide)]
    rfl

/-! ## Varints -/

/-- The loop of `varint_uint64_serialized_size`: one more byte while `value` is not yet zero,
dividing it by `128` each time.  The loop runs at most `fuel` times; `value` itself is
enough. -/
def varintSizeLoop : Nat → Nat → Nat → Nat
  | 0, _, count => count
  | fuel + 1, value, count =>
    if value > 0 then varintSizeLoop fuel (value / 128) (count + 1) else count

/-- `varint_uint64_serialized_size`. -/
def varintUint64SerializedSize (value : Nat) : Nat := varintSizeLoop value (value / 128) 1

/-- The `while (n >= (1 << 7))` loop of `serialize_varint_uint64_into_buf` and the byte
written after it: the bytes written from `n` on.  The loop runs at most `fuel` times. -/
def serializeVarintLoop : Nat → Nat → List UInt8
  | 0, _ => []
  | fuel + 1, n =>
    if n ≥ 1 <<< 7 then ((n &&& (1 <<< 7) - 1) ||| 1 <<< 7).toUInt8 :: serializeVarintLoop fuel (n >>> 7)
    else [n.toUInt8]

/-- `serialize_varint_uint64_into_buf`: the bytes it writes into the buffer. -/
def serializeVarintUint64IntoBuf (value : Nat) : List UInt8 :=
  if value = 0 then [0] else serializeVarintLoop value value

/-- `serialize_varint_uint64`: the same bytes, appended to the message. -/
def serializeVarintUint64 (value : Nat) : List UInt8 := serializeVarintUint64IntoBuf value

/-- The `for (;;)` loop of `deserialize_varint_uint64`, from the bits `value` read so far and
the shift `offset` of the next byte.  The shift is of a `uint64_t`, so bits above 63 are
lost; the checks at offset 63 make sure no accepted value loses any. -/
def deserializeVarintLoop (value offset : Nat) : List UInt8 → Except ArchiveResult (Nat × List UInt8)
  | [] => .error .sockEof
  | b :: rest =>
    let x := (b &&& ((1 : UInt8) <<< 7) - 1).toNat
    let value := (value ||| x <<< offset) % 2 ^ 64
    if b &&& (1 : UInt8) <<< 7 = 0 then
      if offset = 63 ∧ x > 1 then .error .rangeError else .ok (value, rest)
    else if offset = 63 then .error .rangeError
    else deserializeVarintLoop value (offset + 7) rest

/-- `deserialize_varint_uint64`. -/
def deserializeVarintUint64 (s : List UInt8) : Except ArchiveResult (Nat × List UInt8) :=
  deserializeVarintLoop 0 0 s

example : serializeVarintUint64IntoBuf 138 = [0x8A, 0x01] := by decide

/-! ### The bits of a varint byte -/

/-- The payload of a byte, its low seven bits. -/
theorem toNat_and_payload (b : UInt8) : (b &&& ((1 : UInt8) <<< 7) - 1).toNat = b.toNat % 128 := by
  have mask : (((1 : UInt8) <<< 7) - 1).toNat = 2 ^ 7 - 1 := by decide
  rw [UInt8.toNat_and, mask, Nat.and_two_pow_sub_one_eq_mod]

/-- The continuation bit of a byte, bit 7. -/
theorem and_continuation_eq_zero_iff (b : UInt8) : b &&& (1 : UInt8) <<< 7 = 0 ↔ b.toNat < 128 := by
  have bit : ((1 : UInt8) <<< 7).toNat = 2 ^ 7 := by decide
  have byte := b.toNat_lt
  rw [← UInt8.toNat_inj, UInt8.toNat_and, bit, Nat.and_two_pow, Nat.testBit_eq_decide_div_mod_eq]
  by_cases small : b.toNat < 128
  · simp [Nat.div_eq_of_lt small, small]
  · have top : b.toNat / 128 % 2 = 1 := by omega
    simp [top, small]

/-- Bits placed above all the bits of `value` add to it. -/
theorem or_shiftLeft_eq_add {value x offset : Nat} (below : value < 2 ^ offset) :
    value ||| x <<< offset = value + 2 ^ offset * x := by
  rw [Nat.shiftLeft_eq, Nat.mul_comm, Nat.or_comm, ← Nat.two_pow_add_eq_or_of_lt below, Nat.add_comm]

/-- Setting bit 7 of a payload adds `128` to it. -/
theorem or_shiftLeft_eq_add' {payload : Nat} (below : payload < 2 ^ 7) :
    payload ||| 2 ^ 7 = payload + 128 := by
  have := @or_shiftLeft_eq_add payload 1 7 below
  rw [Nat.shiftLeft_eq, Nat.one_mul] at this
  rw [this, Nat.mul_one]
  rfl

/-- The byte the writer puts down for a last digit. -/
theorem toNat_last_digit {n : Nat} (small : n < 128) : n.toUInt8.toNat = n := by
  rw [Nat.toUInt8, UInt8.toNat_ofNat', Nat.mod_eq_of_lt (by omega)]

/-- The byte the writer puts down for a digit with more to follow. -/
theorem toNat_digit (n : Nat) : (n % 128 + 128).toUInt8.toNat = n % 128 + 128 := by
  rw [Nat.toUInt8, UInt8.toNat_ofNat', Nat.mod_eq_of_lt (by omega)]

/-! ### The writer writes base-128 digits -/

theorem serializeVarintLoop_eq_encode : ∀ fuel n, serializeVarintLoop fuel n = Base128.encode fuel n
  | 0, _ => rfl
  | fuel + 1, n => by
    by_cases small : n < 128
    · rw [serializeVarintLoop, if_neg (by rw [Nat.one_shiftLeft]; omega), Base128.encode_of_lt small]
    · have digit : ((n &&& (1 <<< 7) - 1) ||| 1 <<< 7).toUInt8 = (n % 128 + 128).toUInt8 := by
        have low : n &&& (1 <<< 7) - 1 = n % 128 := by
          rw [Nat.one_shiftLeft, Nat.and_two_pow_sub_one_eq_mod]
        rw [low, Nat.one_shiftLeft, or_shiftLeft_eq_add' (show n % 128 < 2 ^ 7 by omega)]
      rw [serializeVarintLoop, if_pos (by rw [Nat.one_shiftLeft]; omega), digit,
        Nat.shiftRight_eq_div_pow, serializeVarintLoop_eq_encode fuel,
        Base128.encode_of_ge (Nat.le_of_not_lt small)]

/-- A number has no more base-128 digits than it is large. -/
theorem lt_128_pow (value : Nat) : value < 128 ^ value := Nat.lt_pow_self (by omega)

theorem lt_128_pow_succ (value : Nat) : value < 128 ^ (value + 1) :=
  Nat.lt_of_lt_of_le (lt_128_pow value) (Nat.pow_le_pow_right (by omega) (by omega))

/-- `serialize_varint_uint64_into_buf` writes the base-128 digits of the value. -/
theorem serializeVarintUint64IntoBuf_eq (value : Nat) :
    serializeVarintUint64IntoBuf value = Base128.encode (value + 1) value := by
  unfold serializeVarintUint64IntoBuf
  split
  · rename_i zero
    subst zero
    rfl
  · rename_i nonzero
    obtain ⟨fuel, rfl⟩ : ∃ fuel, value = fuel + 1 := ⟨value - 1, by omega⟩
    rw [serializeVarintLoop_eq_encode, Base128.encode_eq_of_lt (lt_128_pow _) (lt_128_pow_succ _)]

/-- The size loop counts the digits of `n` beyond the first, when it starts from `n / 128`. -/
theorem varintSizeLoop_eq : ∀ fuel n count, n < 128 ^ (fuel + 1) →
    varintSizeLoop fuel (n / 128) count + 1 = count + Base128.length (fuel + 1) n
  | 0, n, count, fits => by
    simp only [Nat.zero_add, Nat.pow_one] at fits
    simp [varintSizeLoop, Base128.length, fits]
  | fuel + 1, n, count, fits => by
    by_cases small : n < 128
    · simp [varintSizeLoop, Base128.length, small, Nat.div_eq_of_lt small]
    · have more := varintSizeLoop_eq fuel (n / 128) (count + 1) (Base128.div_lt_of_lt_pow fits)
      rw [varintSizeLoop, if_pos (by omega), Base128.length, if_neg small]
      omega

/-- `varint_uint64_serialized_size` counts the bytes the writer writes. -/
theorem length_serializeVarintUint64IntoBuf (value : Nat) :
    (serializeVarintUint64IntoBuf value).length = varintUint64SerializedSize value := by
  have counted := varintSizeLoop_eq value value 1 (lt_128_pow_succ value)
  rw [serializeVarintUint64IntoBuf_eq, Base128.length_encode, varintUint64SerializedSize]
  omega

@[simp] theorem length_serializeVarintUint64 (value : Nat) :
    (serializeVarintUint64 value).length = varintUint64SerializedSize value :=
  length_serializeVarintUint64IntoBuf value

/-! ### The reader reads base-128 digits -/

/-- The read loop on the digits of `n`, placed above the `offset` bits read so far: the
invariant is that the value read so far holds only bits below `offset` and that `n`'s digits
still fit above them in 64 bits. -/
theorem deserializeVarintLoop_encode : ∀ {fuel n value offset : Nat}, n < 128 ^ (fuel + 1) →
    value < 2 ^ offset → offset % 7 = 0 → value + 2 ^ offset * n < 2 ^ 64 → ∀ rest,
      deserializeVarintLoop value offset (Base128.encode (fuel + 1) n ++ rest) =
        .ok (value + 2 ^ offset * n, rest)
  | fuel, n, value, offset, fits, below, aligned, bounded, rest => by
    have atTop : offset = 63 → n ≤ 1 := by
      intro top
      subst top
      rcases Nat.lt_or_ge n 2 with small | large
      · omega
      · have : 2 ^ 63 * 2 ≤ 2 ^ 63 * n := Nat.mul_le_mul_left _ large
        omega
    by_cases small : n < 128
    · have last : (n.toUInt8 &&& (1 : UInt8) <<< 7) = 0 :=
        (and_continuation_eq_zero_iff _).mpr (by rw [toNat_last_digit small]; exact small)
      have payload : (n.toUInt8 &&& ((1 : UInt8) <<< 7) - 1).toNat = n := by
        rw [toNat_and_payload, toNat_last_digit small, Nat.mod_eq_of_lt small]
      rw [Base128.encode_of_lt small, List.singleton_append, deserializeVarintLoop, payload,
        or_shiftLeft_eq_add below, Nat.mod_eq_of_lt bounded, if_pos last,
        if_neg (by omega)]
    · have large := Nat.le_of_not_lt small
      have more : ¬((n % 128 + 128).toUInt8 &&& (1 : UInt8) <<< 7) = 0 := by
        rw [and_continuation_eq_zero_iff, toNat_digit]
        omega
      obtain ⟨fuel, rfl⟩ := Base128.exists_succ_of_ge large fits
      have notTop : offset ≠ 63 := fun top => by have := atTop top; omega
      -- The low digit goes in at `offset`, and the rest of `n` stays to be read above it.
      have split : 2 ^ offset * n = 2 ^ offset * (n % 128) + 2 ^ (offset + 7) * (n / 128) := by
        rw [Nat.pow_add, Nat.mul_assoc, ← Nat.mul_add]
        congr 1
        omega
      have digitBelow : value + 2 ^ offset * (n % 128) < 2 ^ (offset + 7) := by
        have : 2 ^ offset * (n % 128) ≤ 2 ^ offset * 127 := Nat.mul_le_mul_left _ (by omega)
        rw [Nat.pow_add]
        omega
      have room : 2 ^ (offset + 7) ≤ 2 ^ 64 := by
        have : 2 ^ offset * 128 ≤ 2 ^ offset * n := Nat.mul_le_mul_left _ large
        rw [Nat.pow_add]
        omega
      have payload : ((n % 128 + 128).toUInt8 &&& ((1 : UInt8) <<< 7) - 1).toNat = n % 128 := by
        rw [toNat_and_payload, toNat_digit]
        omega
      rw [Base128.encode_of_ge large, List.cons_append, deserializeVarintLoop, payload,
        or_shiftLeft_eq_add below,
        Nat.mod_eq_of_lt (show value + 2 ^ offset * (n % 128) < 2 ^ 64 by omega), if_neg more, if_neg notTop,
        deserializeVarintLoop_encode (Base128.div_lt_of_lt_pow fits) digitBelow (by omega)
          (by omega) rest, split, Nat.add_assoc]

/-- **The varint round trip.** A value below `2 ^ 64`, written by
`serialize_varint_uint64_into_buf`, is read back by `deserialize_varint_uint64`, which stops
after its last byte. -/
theorem deserializeVarintUint64_serialize {value : Nat} (fits : value < 2 ^ 64) (rest : List UInt8) :
    deserializeVarintUint64 (serializeVarintUint64IntoBuf value ++ rest) = .ok (value, rest) := by
  rw [deserializeVarintUint64, serializeVarintUint64IntoBuf_eq,
    deserializeVarintLoop_encode (lt_128_pow_succ value) (by decide) rfl (by omega) rest]
  simp

/-- The same for the varint appended to a message. -/
theorem deserializeVarintUint64_serializeVarintUint64 {value : Nat} (fits : value < 2 ^ 64) (rest : List UInt8) :
    deserializeVarintUint64 (serializeVarintUint64 value ++ rest) = .ok (value, rest) :=
  deserializeVarintUint64_serialize fits rest

/-- **The varint round trip.**  Every `uint64_t` is written in
`varint_uint64_serialized_size` bytes, and reading them back gives the value and leaves what
follows. -/
theorem varint_round_trip {value : Nat} (fits : value < 2 ^ 64) (rest : List UInt8) :
    (serializeVarintUint64 value).length = varintUint64SerializedSize value ∧
      deserializeVarintUint64 (serializeVarintUint64 value ++ rest) = .ok (value, rest) :=
  ⟨length_serializeVarintUint64 value, deserializeVarintUint64_serializeVarintUint64 fits rest⟩

theorem varint_round_trip_300 :
    (300 : Nat) < 2 ^ 64 ∧ ((serializeVarintUint64 300).length = varintUint64SerializedSize 300 ∧
      deserializeVarintUint64 (serializeVarintUint64 300 ++ [7]) = .ok (300, [7])) :=
  ⟨by decide, varint_round_trip (by decide) [7]⟩

/-- The read loop accepts only digits that fit: what it returns is the value read so far with
the number the remaining digits spell placed above it. -/
theorem decode_of_deserializeVarintLoop : ∀ {value offset v : Nat} {s rest : List UInt8},
    deserializeVarintLoop value offset s = .ok (v, rest) → value < 2 ^ offset → offset ≤ 63 →
      offset % 7 = 0 → ∃ n, Base128.decode s = some (n, rest) ∧ v = value + 2 ^ offset * n
  | _, _, _, [], _, read, _, _, _ => by simp [deserializeVarintLoop] at read
  | value, offset, v, b :: s, rest, read, below, top, aligned => by
    have byte := b.toNat_lt
    -- No bits are lost below offset 63, and at 63 only a payload of at most one is accepted.
    have placed : value ||| (b &&& ((1 : UInt8) <<< 7) - 1).toNat <<< offset = value + 2 ^ offset * (b.toNat % 128) := by
      rw [toNat_and_payload, or_shiftLeft_eq_add below]
    rw [deserializeVarintLoop] at read
    simp only [placed] at read
    by_cases last : b &&& (1 : UInt8) <<< 7 = 0
    · have small := (and_continuation_eq_zero_iff b).mp last
      rw [if_pos last] at read
      split at read
      · cases read
      · rename_i fits
        rw [toNat_and_payload] at fits
        simp only [Except.ok.injEq, Prod.mk.injEq] at read
        obtain ⟨value_eq, rfl⟩ := read
        refine ⟨b.toNat, by simp [Base128.decode, small], ?_⟩
        -- Below 63 the value stays under `2 ^ 63`; at 63 the payload is `0` or `1`.
        have sum : value + 2 ^ offset * (b.toNat % 128) < 2 ^ 64 := by
          rcases Nat.lt_or_ge offset 63 with low | high
          · have : 2 ^ offset ≤ 2 ^ 56 := Nat.pow_le_pow_right (by omega) (by omega)
            have : 2 ^ offset * (b.toNat % 128) ≤ 2 ^ 56 * 127 :=
              Nat.mul_le_mul this (by omega)
            omega
          · have : offset = 63 := by omega
            subst this
            have : b.toNat % 128 ≤ 1 := by omega
            have : 2 ^ 63 * (b.toNat % 128) ≤ 2 ^ 63 * 1 := Nat.mul_le_mul_left _ this
            omega
        rw [← value_eq, Nat.mod_eq_of_lt sum, Nat.mod_eq_of_lt small]
    · have large : 128 ≤ b.toNat := Nat.le_of_not_lt ((and_continuation_eq_zero_iff b).not.mp last)
      rw [if_neg last] at read
      split at read
      · cases read
      · rename_i notTop
        have low : offset ≤ 56 := by omega
        have sum : value + 2 ^ offset * (b.toNat % 128) < 2 ^ (offset + 7) := by
          have : 2 ^ offset * (b.toNat % 128) ≤ 2 ^ offset * 127 := Nat.mul_le_mul_left _ (by omega)
          rw [Nat.pow_add]
          omega
        have fits : 2 ^ (offset + 7) ≤ 2 ^ 64 := Nat.pow_le_pow_right (by omega) (by omega)
        rw [Nat.mod_eq_of_lt (by omega)] at read
        obtain ⟨n, decoded, rfl⟩ := decode_of_deserializeVarintLoop read sum (by omega) (by omega)
        refine ⟨b.toNat - 128 + 128 * n, by simp [Base128.decode, decoded, Nat.not_lt.mpr large], ?_⟩
        have digits : b.toNat % 128 + 2 ^ 7 * n = b.toNat - 128 + 128 * n := by omega
        rw [Nat.pow_add, Nat.add_assoc, Nat.mul_assoc, ← Nat.mul_add, digits]

/-- **The reader never truncates.** Whatever `deserialize_varint_uint64` accepts is exactly the
base-128 number its bytes spell, and the stream it leaves is what follows that number's last
byte. -/
theorem decode_of_deserialize {s rest : List UInt8} {v : Nat}
    (read : deserializeVarintUint64 s = .ok (v, rest)) : Base128.decode s = some (v, rest) := by
  obtain ⟨n, decoded, value⟩ := decode_of_deserializeVarintLoop read (by decide) (by omega) rfl
  simp only [Nat.pow_zero, Nat.one_mul, Nat.zero_add] at value
  rwa [value]

theorem decode_of_deserialize_138 :
    deserializeVarintUint64 [0x8A, 0x01] = .ok (138, []) ∧ Base128.decode [0x8A, 0x01] = some (138, []) :=
  ⟨rfl, decode_of_deserialize rfl⟩

end Archive
end Containers
end RethinkDB
