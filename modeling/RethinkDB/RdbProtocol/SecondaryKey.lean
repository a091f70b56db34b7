import RethinkDB.RdbProtocol.PrimaryKeyOrder

/-!
# Secondary keys

A secondary index stores a row under `print_secondary`: the key of the index value, written
as for a primary key, and a NUL byte (from `v1_14` on), cut to `trunc_size` bytes; then the
primary key; in 1.16+ the top bit of the first byte is set and a NUL byte follows the
primary key; last the tag of a multi-index element and two offset bytes.  How much of a
stored key was cut depends on the length of its primary key, so a range scan cannot know
it: `to_sindex_keyrange` cuts each bound to `max_trunc_size`, the cut for the longest
primary key, and ends the range at the prefix successor of the cut right bound.  The rows
of the scan are filtered against the datum range afterwards, so the key range only has to
hold every row the datum range contains.

That soundness rests on the order of primary keys from `PrimaryKeyOrder`: a row between the
bounds has a key between theirs, the cuts keep it on the right side of the left bound, and
on the right it stays below the cut bound or extends it, hence below its prefix successor.
The version tag only adds `0x80` to first bytes that all lie below `0x80`.
-/

namespace RethinkDB
namespace Ql

open Bytes Btree

/-- `tag_size`: a multi-index tag is a `uint64_t`. -/
def tagSize : Nat := 8

/-- `skey_version_t`. -/
inductive SkeyVersion where
  | pre116
  | post116
  deriving DecidableEq, Repr

/-- `skey_version_from_reql_version`. -/
def skeyVersionFromReqlVersion : ReqlVersion → SkeyVersion
  | .v1_13 | .v1_14 => .pre116
  | .v1_16 | .v2_0 | .v2_1 => .post116

/-- `datum_t::trunc_size`: what `MAX_KEY_SIZE` leaves beside the primary key, its NUL byte
in 1.16+, the tag and the two offsets.  Every caller passes at most `MAX_PRIMARY_KEY_SIZE`,
where the `size_t` difference does not wrap. -/
def truncSize (skeyVersion : SkeyVersion) (primaryKeySize : Nat) : Nat :=
  let terminatedPrimaryKeySize :=
    match skeyVersion with
    | .pre116 => primaryKeySize
    | .post116 => primaryKeySize + 1
  maxKeySize - terminatedPrimaryKeySize - tagSize - 2

/-- `datum_t::max_trunc_size`. -/
def maxTruncSize (skeyVersion : SkeyVersion) : Nat :=
  truncSize skeyVersion maxPrimaryKeySize

/-- `tag_skey_version`: in 1.16+ the top bit of the first byte is set, and the flag says
so. -/
def tagSkeyVersion (skeyVersion : SkeyVersion) (s : List UInt8) :
    Except Error (List UInt8 × Bool) :=
  match s with
  -- `guarantee(s->size() > 0)`
  | [] => throw .sanityCheck
  | first :: rest =>
      -- `guarantee(!((*s)[0] & 0x80))`: no key of a datum has the top bit set
      if first &&& 0x80 ≠ 0 then throw .sanityCheck
      else
        match skeyVersion with
        | .pre116 => pure (first :: rest, false)
        | .post116 => pure ((first ||| 0x80) :: rest, true)

/-- `datum_t::mangle_secondary`. -/
def mangleSecondary (skeyVersion : SkeyVersion) (secondary primary tag : List UInt8) :
    Except Error (List UInt8) := do
  if ¬secondary.length < 255 then throw .sanityCheck
  if ¬secondary.length + primary.length < 255 then throw .sanityCheck
  let pkOffset : UInt8 := secondary.length.toUInt8
  let (res, tagged) ← tagSkeyVersion skeyVersion (secondary ++ primary)
  let res := if tagged then res ++ [0] else res
  let tagOffset : UInt8 := res.length.toUInt8
  if ¬res.length ≤ maxKeySize then throw .sanityCheck
  return res ++ tag ++ [pkOffset, tagOffset]

/-- `datum_t::encode_tag_num`: the eight bytes of the tag, least significant first. -/
def encodeTagNum (tagNum : UInt64) : List UInt8 :=
  (List.range tagSize).map fun i => (tagNum.toNat / 256 ^ i % 256).toUInt8

/-- `datum_t::compose_secondary`. -/
def composeSecondary (skeyVersion : SkeyVersion) (secondaryKey : List UInt8)
    (primaryKey : StoreKey) (tagNum : Option UInt64) : Except Error (List UInt8) := do
  let primaryKeyString := primaryKey.contents
  if ¬primaryKeyString.length ≤ maxPrimaryKeySize then
    throw (.primaryKeyStringTooLong primaryKeyString)
  let tagString :=
    match tagNum with
    | some tagNum => encodeTagNum tagNum
    | none => []
  let truncatedSecondaryKey :=
    secondaryKey.take (truncSize skeyVersion primaryKeyString.length)
  mangleSecondary skeyVersion truncatedSecondaryKey primaryKeyString tagString

/-- `datum_t::print_secondary`. -/
def Datum.printSecondary (d : Datum) (reqlVersion : ReqlVersion) (primaryKey : StoreKey)
    (tagNum : Option UInt64) : Except Error (List UInt8) := do
  let secondaryKeyString ←
    match d with
    | .num _ => numToStrKey [] d
    | .str _ => strToStrKey [] d
    | .binary _ => binaryToStrKey [] d
    | .bool _ => boolToStrKey [] d
    | .array _ => arrayToStrKey [] d
    | .object _ => if d.isPtype then ptToStrKey [] d else throw (.secondaryKeyType d)
    | .minval | .maxval | .null => throw (.secondaryKeyType d)
  let secondaryKeyString :=
    match reqlVersion with
    | .v1_13 => secondaryKeyString
    | .v1_14 | .v1_16 | .v2_0 | .v2_1 => secondaryKeyString ++ [0]
  composeSecondary (skeyVersionFromReqlVersion reqlVersion) secondaryKeyString primaryKey tagNum

example : (Datum.str (ascii "a")).printSecondary .v2_1 (truncatedKey (ascii "Sb")) none =
    .ok [0xD3, 0x61, 0, 0x53, 0x62, 0, 3, 6] := by
  decide +kernel

/-- `extrema_ok_t`. -/
inductive ExtremaOk where
  | ok
  | notOk
  deriving DecidableEq, Repr

/-- `datum_t::truncated_secondary`: the key of a bound, cut to `max_trunc_size` and tagged
with the version. -/
def Datum.truncatedSecondary (d : Datum) (skeyVersion : SkeyVersion) (extremaOk : ExtremaOk) :
    Except Error StoreKey := do
  let s ←
    match d with
    | .num _ => numToStrKey [] d
    | .str _ => strToStrKey [] d
    | .binary _ => binaryToStrKey [] d
    | .bool _ => boolToStrKey [] d
    | .array _ => arrayToStrKey [] d
    | .object _ =>
        if d.isPtype then ptToStrKey [] d else throw (.truncatedSecondaryKeyType d)
    | .minval | .maxval =>
        if extremaOk = .ok then extremaToStrKey [] d else throw .extremaSecondaryKey
    | .null => throw (.truncatedSecondaryKeyType d)
  let mts := maxTruncSize skeyVersion
  let s := if s.length ≥ mts then s.take mts else s
  let (s, _) ← tagSkeyVersion skeyVersion s
  -- `store_key_t(s)`: at most `max_trunc_size` bytes, so the cut of `truncatedKey` is void
  return truncatedKey s

/-- `rdb_protocol::sindex_key_range`: from `start`, closed, to the prefix successor of
`end`, open, or to `store_key_t::max()` when `end` is all `0xFF`. -/
def sindexKeyRange (start «end» : StoreKey) : KeyRange :=
  let endKey : StoreKey :=
    match found : prefixSuccessor «end».contents with
    | some successor => ⟨successor, (prefixSuccessor_length_le found).trans «end».size_le⟩
    | none => StoreKey.max
  KeyRange.make .closed start .«open» endKey

/-- `datum_range_t::to_sindex_keyrange`. -/
def DatumRange.toSindexKeyrange (range : DatumRange) (skeyVersion : SkeyVersion) :
    Except Error KeyRange := do
  let lb ← range.leftBound.truncatedSecondary skeyVersion .ok
  let rb ← range.rightBound.truncatedSecondary skeyVersion .ok
  return sindexKeyRange lb rb

/-! ## The version tag -/

/-- The bytes `tag_skey_version` leaves: in 1.16+ the first byte with its top bit set. -/
def topBitSet : SkeyVersion → List UInt8 → List UInt8
  | .post116, first :: rest => (first ||| 0x80) :: rest
  | _, s => s

/-- A key that starts with a byte below `0x80`, as every key of a datum does. -/
def LowFirstByte (s : List UInt8) : Prop :=
  ∃ first rest, s = first :: rest ∧ first < 0x80

theorem and_top_eq_zero {first : UInt8} (low : first < 0x80) : first &&& 0x80 = 0 := by
  have small : first.toNat < 2 ^ 7 := UInt8.lt_iff_toNat_lt.mp low
  rw [← UInt8.toNat_inj, UInt8.toNat_and, show (0x80 : UInt8).toNat = 2 ^ 7 from rfl,
    Nat.and_two_pow, Nat.testBit_lt_two_pow small]
  rfl

theorem toNat_or_top {first : UInt8} (low : first < 0x80) :
    (first ||| 0x80).toNat = first.toNat + 128 := by
  have small : first.toNat < 2 ^ 7 := UInt8.lt_iff_toNat_lt.mp low
  rw [UInt8.toNat_or, show (0x80 : UInt8).toNat = 2 ^ 7 from rfl,
    Nat.or_two_pow_eq_add_of_lt small]

theorem tagSkeyVersion_of_low {s : List UInt8} (low : LowFirstByte s)
    (skeyVersion : SkeyVersion) :
    tagSkeyVersion skeyVersion s = .ok (topBitSet skeyVersion s, decide (skeyVersion = .post116)) := by
  obtain ⟨first, rest, rfl, lt⟩ := low
  cases skeyVersion <;> simp [tagSkeyVersion, and_top_eq_zero lt, topBitSet] <;> rfl

theorem topBitSet_append {s : List UInt8} (nonempty : s ≠ []) (skeyVersion : SkeyVersion)
    (t : List UInt8) : topBitSet skeyVersion (s ++ t) = topBitSet skeyVersion s ++ t := by
  obtain ⟨first, rest, rfl⟩ := List.exists_cons_of_ne_nil nonempty
  cases skeyVersion <;> rfl

@[simp] theorem length_topBitSet (skeyVersion : SkeyVersion) (s : List UInt8) :
    (topBitSet skeyVersion s).length = s.length := by
  cases skeyVersion <;> cases s <;> rfl

theorem LowFirstByte.ne_nil {s : List UInt8} (low : LowFirstByte s) : s ≠ [] := by
  obtain ⟨first, rest, rfl, -⟩ := low
  exact List.cons_ne_nil first rest

theorem LowFirstByte.append {s : List UInt8} (low : LowFirstByte s) (t : List UInt8) :
    LowFirstByte (s ++ t) := by
  obtain ⟨first, rest, rfl, lt⟩ := low
  exact ⟨first, rest ++ t, rfl, lt⟩

/-- Setting the top bit adds `0x80` to first bytes below `0x80`, which keeps their order. -/
theorem lexSign_topBitSet {a b : List UInt8} (lowA : LowFirstByte a) (lowB : LowFirstByte b)
    (skeyVersion : SkeyVersion) :
    lexSign (topBitSet skeyVersion a) (topBitSet skeyVersion b) = lexSign a b := by
  obtain ⟨x, a', rfl, ltX⟩ := lowA
  obtain ⟨y, b', rfl, ltY⟩ := lowB
  cases skeyVersion with
  | pre116 => rfl
  | post116 =>
      simp only [topBitSet, lexSign_cons_cons, ← UInt8.toNat_inj, UInt8.lt_iff_toNat_lt,
        toNat_or_top ltX, toNat_or_top ltY, Nat.add_right_cancel_iff, Nat.add_lt_add_iff_right]

theorem topBitSet_le {a b : List UInt8} (lowA : LowFirstByte a) (lowB : LowFirstByte b)
    (skeyVersion : SkeyVersion) (le : a ≤ b) : topBitSet skeyVersion a ≤ topBitSet skeyVersion b := by
  intro above
  rw [← lexSign_eq_one_iff, lexSign_topBitSet lowA lowB, lexSign_eq_one_iff] at above
  exact le above

theorem topBitSet_lt {a b : List UInt8} (lowA : LowFirstByte a) (lowB : LowFirstByte b)
    (skeyVersion : SkeyVersion) (lt : a < b) : topBitSet skeyVersion a < topBitSet skeyVersion b := by
  rw [← lexSign_eq_neg_one_iff, lexSign_topBitSet lowA lowB, lexSign_eq_neg_one_iff]
  exact lt

theorem topBitSet_isPrefix {a b : List UInt8} (nonempty : a ≠ []) (skeyVersion : SkeyVersion)
    (extends_ : a <+: b) : topBitSet skeyVersion a <+: topBitSet skeyVersion b := by
  obtain ⟨rest, rfl⟩ := extends_
  rw [topBitSet_append nonempty]
  exact List.prefix_append _ _

/-! ## First bytes of keys -/

theorem KeyKind.tag_first_lt (k : KeyKind) : ∃ first rest, k.tag = first :: rest ∧ first < 0x7F := by
  cases k <;> exact ⟨_, _, rfl, by decide⟩

/-- The key of a valid primary key starts with its tag, below `0x7F`. -/
theorem keyOf_first_lt {x : Datum} (valid : x.isPrimaryKey = true) :
    ∃ first rest, keyOf x = first :: rest ∧ first < 0x7F := by
  obtain ⟨rest, key⟩ := keyOf_eq_tag_append valid
  obtain ⟨first, tagRest, tag, lt⟩ := KeyKind.tag_first_lt x.keyKind
  exact ⟨first, tagRest ++ rest, by rw [key, tag]; rfl, lt⟩

theorem lt_top_of_lt_max {first : UInt8} (lt : first < 0x7F) : first < 0x80 := by
  have below : first.toNat < 0x7F := UInt8.lt_iff_toNat_lt.mp lt
  exact UInt8.lt_iff_toNat_lt.mpr (by simp; omega)

theorem keyOf_low {x : Datum} (valid : x.isPrimaryKey = true) : LowFirstByte (keyOf x) := by
  obtain ⟨first, rest, key, lt⟩ := keyOf_first_lt valid
  exact ⟨first, rest, key, lt_top_of_lt_max lt⟩

/-- The key of a bound starts below `0x80`. -/
theorem boundKeyOf_low {bound : Datum} (isBound : bound.isPrimaryBound = true) :
    LowFirstByte (boundKeyOf bound) := by
  by_cases extremum : bound = .minval ∨ bound = .maxval
  · rcases extremum with rfl | rfl
    · exact ⟨0, [], rfl, by decide⟩
    · exact ⟨0x7F, List.replicate 249 255, by rw [boundKeyOf, maxvalKey_eq]; rfl, by decide⟩
  · have valid := isPrimaryKey_of_isPrimaryBound isBound extremum
    rw [boundKeyOf_of_isPrimaryKey valid]
    exact keyOf_low valid

theorem LowFirstByte.of_take {s : List UInt8} {n : Nat} (low : LowFirstByte (s.take n)) :
    LowFirstByte s := by
  obtain ⟨first, rest, split, lt⟩ := low
  cases s with
  | nil => simp at split
  | cons x s' =>
      cases n with
      | zero => simp at split
      | succ k =>
          simp only [List.take_succ_cons, List.cons.injEq] at split
          exact ⟨x, s', rfl, split.1 ▸ lt⟩

/-- No valid key, with the NUL byte after it, is a prefix of the key of a bound: the key of
`r.minval` is too short, that of `r.maxval` diverges at the tag, and keys of valid datums
are separated by their NUL bytes. -/
theorem keyOf_append_zero_not_isPrefix {x bound : Datum} (valid : x.isPrimaryKey = true)
    (isBound : bound.isPrimaryBound = true) : ¬keyOf x ++ [0] <+: boundKeyOf bound := by
  have longer : ∀ s : List UInt8, s.length ≤ (keyOf x).length → ¬keyOf x ++ [0] <+: s := by
    intro s short extends_
    have := extends_.length_le
    simp only [List.length_append, List.length_singleton] at this
    omega
  by_cases extremum : bound = .minval ∨ bound = .maxval
  · rcases extremum with rfl | rfl
    · obtain ⟨first, rest, key, -⟩ := keyOf_first_lt valid
      exact longer [0] (by simp [key])
    · obtain ⟨rest, key⟩ := keyOf_eq_tag_append valid
      obtain ⟨-, ⟨notPrefix, notPrefix', -⟩⟩ := KeyKind.tag_between x.keyKind
      have diverge : Diverge (keyOf x ++ [0]) (boundKeyOf .maxval) := by
        rw [boundKeyOf, key, maxvalKey_eq, List.append_assoc]
        exact (diverge_of_not_isPrefix notPrefix' notPrefix).append_right _ _
      exact diverge.not_isPrefix
  · have validBound := isPrimaryKey_of_isPrimaryBound isBound extremum
    rw [boundKeyOf_of_isPrimaryKey validBound]
    by_cases same : keyOf x = keyOf bound
    · exact longer _ (by rw [same])
    · intro extends_
      exact (keyOf_separated x valid bound validBound same).not_isPrefix
        (extends_.trans (List.prefix_append _ _))

/-! ## What the encoders write -/

theorem encodeTagNum_length (tagNum : UInt64) : (encodeTagNum tagNum).length = tagSize := by
  simp [encodeTagNum]

/-- With a primary key of at most `MAX_PRIMARY_KEY_SIZE` bytes the secondary part, the
primary key and its NUL byte take at most 240 bytes, and the cut keeps at least one. -/
theorem truncSize_bounds (skeyVersion : SkeyVersion) {primaryKeySize : Nat}
    (short : primaryKeySize ≤ maxPrimaryKeySize) :
    0 < truncSize skeyVersion primaryKeySize ∧
      truncSize skeyVersion primaryKeySize + primaryKeySize +
        (if skeyVersion = .post116 then 1 else 0) = 240 := by
  unfold maxPrimaryKeySize at short
  cases skeyVersion <;> simp [truncSize, maxKeySize, tagSize] <;> omega

theorem truncSize_le (skeyVersion : SkeyVersion) (primaryKeySize : Nat) :
    truncSize skeyVersion primaryKeySize ≤ maxKeySize := by
  unfold truncSize
  cases skeyVersion <;> simp only [] <;> omega

theorem maxTruncSize_le_truncSize (skeyVersion : SkeyVersion) {primaryKeySize : Nat}
    (short : primaryKeySize ≤ maxPrimaryKeySize) :
    maxTruncSize skeyVersion ≤ truncSize skeyVersion primaryKeySize := by
  unfold maxTruncSize truncSize
  cases skeyVersion <;> simp only [] <;> omega

theorem maxTruncSize_bounds (skeyVersion : SkeyVersion) :
    0 < maxTruncSize skeyVersion ∧ maxTruncSize skeyVersion ≤ maxKeySize := by
  cases skeyVersion <;> decide

theorem LowFirstByte.take {s : List UInt8} (low : LowFirstByte s) {n : Nat} (positive : 0 < n) :
    LowFirstByte (s.take n) := by
  obtain ⟨first, rest, rfl, lt⟩ := low
  obtain ⟨k, rfl⟩ : ∃ k, n = k + 1 := ⟨n - 1, by omega⟩
  exact ⟨first, rest.take k, rfl, lt⟩

/-- `mangle_secondary` of a secondary part and a primary key that fit, byte by byte: both, with
the version tag on the first byte, then in 1.16+ a NUL byte, the tag and the two offsets. -/
theorem mangleSecondary_ok (skeyVersion : SkeyVersion) {secondary primary tag : List UInt8}
    (low : LowFirstByte (secondary ++ primary))
    (fits : secondary.length + primary.length + (if skeyVersion = .post116 then 1 else 0) ≤ 240) :
    mangleSecondary skeyVersion secondary primary tag =
      .ok (topBitSet skeyVersion (secondary ++ primary) ++
        (if skeyVersion = .post116 then [0] else []) ++ tag ++
        [secondary.length.toUInt8,
          (secondary.length + primary.length + if skeyVersion = .post116 then 1 else 0).toUInt8]) := by
  have firstSmall : secondary.length < 255 := by split at fits <;> omega
  have bothSmall : secondary.length + primary.length < 255 := by split at fits <;> omega
  cases skeyVersion with
  | pre116 =>
      rw [if_neg (by decide)] at fits
      have resFits : secondary.length + primary.length ≤ maxKeySize := by
        unfold maxKeySize; omega
      simp only [mangleSecondary, tagSkeyVersion_of_low low, firstSmall, bothSmall, bind,
        Except.bind, not_true_eq_false, if_false, reduceCtorEq, decide_false,
        Bool.false_eq_true, List.length_append, length_topBitSet]
      rw [if_neg (not_not.mpr resFits)]
      simp
      rfl
  | post116 =>
      rw [if_pos rfl] at fits
      have resFits : secondary.length + primary.length + 1 ≤ maxKeySize := by
        unfold maxKeySize; omega
      simp only [mangleSecondary, tagSkeyVersion_of_low low, firstSmall, bothSmall, bind,
        Except.bind, not_true_eq_false, if_false, decide_true, if_true, List.length_append,
        length_topBitSet, List.length_singleton]
      rw [if_neg (not_not.mpr resFits)]
      simp
      rfl

/-- `mangle_secondary` of a secondary part and a primary key that fit: both, then in 1.16+
a NUL byte, the tag and the offsets, with the version tag on the first byte. -/
theorem mangleSecondary_eq (skeyVersion : SkeyVersion) {secondary primary tag : List UInt8}
    (low : LowFirstByte (secondary ++ primary))
    (fits : secondary.length + primary.length + (if skeyVersion = .post116 then 1 else 0) ≤ 240)
    (tagShort : tag.length ≤ tagSize) :
    ∃ rest, mangleSecondary skeyVersion secondary primary tag =
        .ok (topBitSet skeyVersion (secondary ++ primary ++ rest)) ∧
      (secondary ++ primary ++ rest).length ≤ maxKeySize := by
  rw [mangleSecondary_ok skeyVersion low fits]
  refine ⟨(if skeyVersion = .post116 then [0] else []) ++ tag ++ [secondary.length.toUInt8,
    (secondary.length + primary.length + if skeyVersion = .post116 then 1 else 0).toUInt8], ?_, ?_⟩
  · rw [topBitSet_append low.ne_nil]
    simp only [List.append_assoc]
  · unfold tagSize at tagShort
    unfold maxKeySize
    cases skeyVersion <;> simp at fits ⊢ <;> omega

/-- The cut secondary key, the primary key and its NUL byte leave room for the tag and the
offsets. -/
theorem truncated_fits (skeyVersion : SkeyVersion) {primaryKeySize : Nat}
    (short : primaryKeySize ≤ maxPrimaryKeySize) (secondaryKey : List UInt8) :
    (secondaryKey.take (truncSize skeyVersion primaryKeySize)).length + primaryKeySize +
      (if skeyVersion = .post116 then 1 else 0) ≤ 240 := by
  obtain ⟨-, total⟩ := truncSize_bounds skeyVersion short
  have cutLength := List.length_take_le (truncSize skeyVersion primaryKeySize) secondaryKey
  generalize (if skeyVersion = .post116 then 1 else 0) = extra at total ⊢
  omega

/-- `compose_secondary` of a key with a low first byte and a short primary key: the cut key
and, after it, the primary key, its NUL byte, the tag and the offsets, with the version
tag on the first byte; at most `MAX_KEY_SIZE` bytes. -/
theorem composeSecondary_eq (skeyVersion : SkeyVersion) {secondaryKey : List UInt8}
    (low : LowFirstByte secondaryKey) {primaryKey : StoreKey}
    (short : primaryKey.contents.length ≤ maxPrimaryKeySize) (tagNum : Option UInt64) :
    ∃ key rest, composeSecondary skeyVersion secondaryKey primaryKey tagNum = .ok key ∧
      key = topBitSet skeyVersion
        (secondaryKey.take (truncSize skeyVersion primaryKey.contents.length) ++ rest) ∧
      key.length ≤ maxKeySize := by
  have positive := (truncSize_bounds skeyVersion short).1
  have tagShort : (match tagNum with
      | some tagNum => encodeTagNum tagNum
      | none => []).length ≤ tagSize := by
    cases tagNum <;> simp [encodeTagNum_length, tagSize]
  obtain ⟨rest, mangled, length⟩ :=
    mangleSecondary_eq skeyVersion ((low.take positive).append primaryKey.contents)
      (truncated_fits skeyVersion short secondaryKey) tagShort
  refine ⟨topBitSet skeyVersion (secondaryKey.take (truncSize skeyVersion
    primaryKey.contents.length) ++ primaryKey.contents ++ rest), primaryKey.contents ++ rest, ?_,
    by rw [List.append_assoc], by rwa [length_topBitSet]⟩
  simp only [composeSecondary, short, not_true_eq_false, if_false]
  exact mangled

/-- `compose_secondary` byte by byte: the cut key and the primary key with the version tag on
the first byte, in 1.16+ a NUL byte, the encoded tag and the two offsets. -/
theorem composeSecondary_ok (skeyVersion : SkeyVersion) {secondaryKey : List UInt8}
    (low : LowFirstByte secondaryKey) {primaryKey : StoreKey}
    (short : primaryKey.contents.length ≤ maxPrimaryKeySize) (tagNum : Option UInt64) :
    composeSecondary skeyVersion secondaryKey primaryKey tagNum =
      .ok (topBitSet skeyVersion (secondaryKey.take (truncSize skeyVersion
          primaryKey.contents.length) ++ primaryKey.contents) ++
        (if skeyVersion = .post116 then [0] else []) ++ (tagNum.map encodeTagNum).getD [] ++
        [(secondaryKey.take (truncSize skeyVersion primaryKey.contents.length)).length.toUInt8,
          ((secondaryKey.take (truncSize skeyVersion primaryKey.contents.length)).length +
            primaryKey.contents.length + if skeyVersion = .post116 then 1 else 0).toUInt8]) := by
  have positive := (truncSize_bounds skeyVersion short).1
  simp only [composeSecondary, short, not_true_eq_false, if_false]
  rw [mangleSecondary_ok skeyVersion ((low.take positive).append primaryKey.contents)
    (truncated_fits skeyVersion short secondaryKey)]
  cases tagNum <;> rfl

/-! ## Rows and bounds -/

/-- From `v1_14` on, `print_secondary` composes the key `print_primary_internal` writes for
a valid datum and a NUL byte. -/
theorem printSecondary_eq_composeSecondary {x : Datum} (valid : x.isPrimaryKey = true)
    {encoded : List UInt8} (printed : printPrimaryInternal x = .ok encoded) {version : ReqlVersion}
    (modern : version ≠ .v1_13) (primaryKey : StoreKey) (tagNum : Option UInt64) :
    x.printSecondary version primaryKey tagNum =
      composeSecondary (skeyVersionFromReqlVersion version) (encoded ++ [0]) primaryKey tagNum := by
  -- `print_secondary` refuses the extrema that `print_primary_internal` writes.
  cases x with
  | minval | maxval | null => simp [Datum.isPrimaryKey] at valid
  | object pairs =>
      by_cases ptype : (Datum.object pairs).isPtype = true
      · simp only [printPrimaryInternal, ptype, if_true] at printed
        simp only [Datum.printSecondary, ptype, if_true, printed, bind, Except.bind]
        cases version <;> first | exact absurd rfl modern | rfl
      · simp [printPrimaryInternal, ptype] at printed
  | _ =>
      simp only [Datum.printSecondary, printPrimaryInternal] at printed ⊢
      simp only [printed, bind, Except.bind]
      cases version <;> first | exact absurd rfl modern | rfl

/-- `truncated_secondary` of a bound is the version-tagged cut of the key
`print_primary_internal` writes for it. -/
theorem truncatedSecondary_eq (skeyVersion : SkeyVersion) {bound : Datum} {out : List UInt8}
    (printed : printPrimaryInternal bound = .ok out)
    (low : LowFirstByte (out.take (maxTruncSize skeyVersion))) :
    bound.truncatedSecondary skeyVersion .ok =
      .ok (truncatedKey (topBitSet skeyVersion (out.take (maxTruncSize skeyVersion)))) := by
  have cut : (if out.length ≥ maxTruncSize skeyVersion then out.take (maxTruncSize skeyVersion)
      else out) = out.take (maxTruncSize skeyVersion) := by
    split
    · rfl
    · rw [List.take_of_length_le (by omega)]
  -- `truncated_secondary` writes a bound, extrema included, as `print_primary_internal` does.
  cases bound with
  | null => simp [printPrimaryInternal] at printed
  | object pairs =>
      by_cases ptype : (Datum.object pairs).isPtype = true
      · simp only [printPrimaryInternal, ptype, if_true] at printed
        simp only [Datum.truncatedSecondary, ptype, if_true, printed, bind, Except.bind, cut,
          tagSkeyVersion_of_low low]
        rfl
      · simp [printPrimaryInternal, ptype] at printed
  | _ =>
      simp only [printPrimaryInternal] at printed
      simp only [Datum.truncatedSecondary, printed, bind, Except.bind, cut,
        tagSkeyVersion_of_low low, if_true]
      rfl

/-- A key at or above `start` that lies below `end` or extends it, and does not start with
`0xFF`, lies in `sindex_key_range(start, end)`. -/
theorem sindexKeyRange_containsKey {start «end» key : StoreKey}
    (above : ¬key.contents < start.contents)
    (below : key.contents < «end».contents ∨ «end».contents <+: key.contents)
    {first : UInt8} {rest : List UInt8} (split : key.contents = first :: rest)
    (notFull : first < 255) : (sindexKeyRange start «end»).containsKey key = true := by
  unfold sindexKeyRange
  rw [KeyRange.containsKey_make]
  refine ⟨above, ?_⟩
  split
  · rename_i successor found
    exact lt_prefixSuccessor_of_lt_or_prefix found below
  · -- Past an end of only `0xFF` bytes the range runs to `store_key_t::max()`.
    show key.contents < StoreKey.max.contents
    rw [split]
    exact lt_max_of_first_lt notFull

/-! ## Soundness of secondary range scans -/

/-- `truncated_secondary` of a bound is the version-tagged cut of its key. -/
theorem truncatedSecondary_boundKeyOf (skeyVersion : SkeyVersion) {bound : Datum}
    (isBound : bound.isPrimaryBound = true) :
    bound.truncatedSecondary skeyVersion .ok = .ok (truncatedKey
      (topBitSet skeyVersion ((boundKeyOf bound).take (maxTruncSize skeyVersion)))) := by
  obtain ⟨out, printed, cut⟩ := printPrimaryInternal_boundKeyOf isBound
  obtain ⟨positive, small⟩ := maxTruncSize_bounds skeyVersion
  have sameCut := take_eq_of_take_eq cut small
  have low : LowFirstByte (out.take (maxTruncSize skeyVersion)) := by
    rw [sameCut]
    exact (boundKeyOf_low isBound).take positive
  rw [truncatedSecondary_eq skeyVersion printed low, sameCut]

/-- The cut of a bound fits a store key unchanged. -/
theorem boundCut_contents (skeyVersion : SkeyVersion) (bound : Datum) :
    (truncatedKey (topBitSet skeyVersion ((boundKeyOf bound).take (maxTruncSize skeyVersion)))).contents =
      topBitSet skeyVersion ((boundKeyOf bound).take (maxTruncSize skeyVersion)) := by
  apply truncatedKey_contents_of_le
  rw [length_topBitSet]
  exact (List.length_take_le _ _).trans (maxTruncSize_bounds skeyVersion).2

theorem topBitSet_cons_lt {first : UInt8} (lt : first < 0x7F) (skeyVersion : SkeyVersion)
    (rest : List UInt8) : ∃ first', topBitSet skeyVersion (first :: rest) = first' :: rest ∧ first' < 255 := by
  have below : first.toNat < 0x7F := UInt8.lt_iff_toNat_lt.mp lt
  cases skeyVersion with
  | pre116 => exact ⟨first, rfl, UInt8.lt_iff_toNat_lt.mpr (by simp; omega)⟩
  | post116 =>
      refine ⟨first ||| 0x80, rfl, UInt8.lt_iff_toNat_lt.mpr ?_⟩
      rw [toNat_or_top (lt_top_of_lt_max lt)]
      simp
      omega

section Scan

/- A row is stored under its key and NUL byte cut at some `n`, at least the cut
`max_trunc_size` of the bounds whatever the length of its primary key, and then anything. -/
variable {x : Datum} (valid : x.isPrimaryKey = true) (skeyVersion : SkeyVersion) {n : Nat}
  (longer : maxTruncSize skeyVersion ≤ n) (rest : List UInt8)
include valid longer

theorem storedKey_low : LowFirstByte ((keyOf x ++ [0]).take n ++ rest) :=
  (((keyOf_low valid).append [0]).take ((maxTruncSize_bounds skeyVersion).1.trans_le longer)).append
    rest

/-- The stored key of a row at or above a bound is at or above the cut of the bound. -/
theorem storedKey_not_lt_left {left : Datum} (leftBound : left.isPrimaryBound = true)
    (aboveLeft : ¬keyOf x < boundKeyOf left) :
    ¬topBitSet skeyVersion ((keyOf x ++ [0]).take n ++ rest) <
      topBitSet skeyVersion ((boundKeyOf left).take (maxTruncSize skeyVersion)) := by
  have cut : (boundKeyOf left).take (maxTruncSize skeyVersion) ≤ (keyOf x ++ [0]).take n ++ rest :=
    take_le_take_append (List.le_trans aboveLeft (List.prefix_append _ _).le) longer rest
  exact topBitSet_le ((boundKeyOf_low leftBound).take (maxTruncSize_bounds skeyVersion).1)
    (storedKey_low valid skeyVersion longer rest) skeyVersion cut

/-- The stored key of a row at or below a bound is below the cut of the bound or extends
it: the NUL byte after the row's key keeps it from passing the bound's key. -/
theorem storedKey_below_right {right : Datum} (rightBound : right.isPrimaryBound = true)
    (belowRight : ¬boundKeyOf right < keyOf x) :
    topBitSet skeyVersion ((keyOf x ++ [0]).take n ++ rest) <
        topBitSet skeyVersion ((boundKeyOf right).take (maxTruncSize skeyVersion)) ∨
      topBitSet skeyVersion ((boundKeyOf right).take (maxTruncSize skeyVersion)) <+:
        topBitSet skeyVersion ((keyOf x ++ [0]).take n ++ rest) := by
  have lowRight := (boundKeyOf_low rightBound).take (maxTruncSize_bounds skeyVersion).1
  rcases take_append_zero_lt_or_prefix belowRight (keyOf_append_zero_not_isPrefix valid rightBound)
    longer rest with below | extends_
  · exact Or.inl (topBitSet_lt (storedKey_low valid skeyVersion longer rest) lowRight skeyVersion below)
  · exact Or.inr (topBitSet_isPrefix lowRight.ne_nil skeyVersion extends_)

/-- The stored key starts below `0xFF`: with the tag of the row's key. -/
theorem storedKey_first_lt :
    ∃ first rest', topBitSet skeyVersion ((keyOf x ++ [0]).take n ++ rest) = first :: rest' ∧
      first < 255 := by
  obtain ⟨first, tail, key, lt⟩ := keyOf_first_lt valid
  obtain ⟨k, rfl⟩ : ∃ k, n = k + 1 :=
    ⟨n - 1, by have := (maxTruncSize_bounds skeyVersion).1; omega⟩
  obtain ⟨first', tagged, notFull⟩ := topBitSet_cons_lt lt skeyVersion ((tail ++ [0]).take k ++ rest)
  refine ⟨first', (tail ++ [0]).take k ++ rest, ?_, notFull⟩
  rw [key, List.cons_append, List.take_succ_cons, List.cons_append, tagged]

end Scan

/-- Secondary range scans are sound.  From `v1_14` on, with bounds that are valid keys or
extrema, every row the datum range contains is stored, whatever its primary key and tag,
under a key of at most `MAX_KEY_SIZE` bytes that the scan's key range contains. -/
theorem print_secondary_in_sindex_keyrange (version : ReqlVersion) (modern : version ≠ .v1_13) :
    ∀ range : DatumRange, range.leftBound.isPrimaryBound = true →
      range.rightBound.isPrimaryBound = true →
    ∀ x : Datum, x.isPrimaryKey = true → range.contains version x = .ok true →
    ∀ (primary : Datum) (primaryKey : List UInt8), printPrimary primary = .ok primaryKey →
    ∀ tagNum : Option UInt64,
      ∃ secondaryKey keys,
        x.printSecondary version (truncatedKey primaryKey) tagNum = .ok secondaryKey ∧
        secondaryKey.length ≤ maxKeySize ∧
        range.toSindexKeyrange (skeyVersionFromReqlVersion version) = .ok keys ∧
        keys.containsKey (truncatedKey secondaryKey) = true := by
  intro range leftBound rightBound x valid contains primary primaryKey printedPrimary tagNum
  -- The row lies between the keys of the bounds.
  obtain ⟨leftCmp, leftCompared, leftSign⟩ := modernCmp_boundKeyOf leftBound valid
  obtain ⟨rightCmp, rightCompared, rightSign⟩ := modernCmp_boundKeyOf rightBound valid
  rw [DatumRange.contains, cmp_of_ne_v113 modern, cmp_of_ne_v113 modern, leftCompared,
    rightCompared] at contains
  simp only [bind, Except.bind, pure, Except.pure, Except.ok.injEq, Bool.and_eq_true] at contains
  have aboveLeft := not_lt_of_admitted_left leftSign.symm contains.1
  have belowRight := not_lt_of_admitted_right rightSign.symm contains.2
  -- The stored key is the row's key and NUL byte, cut for the primary key, and the rest.
  have pkShort : (truncatedKey primaryKey).contents.length ≤ maxPrimaryKeySize := by
    rw [truncatedKey_contents]
    exact (List.length_take_le' _ _).trans (printPrimary_length_le printedPrimary)
  obtain ⟨encoded, printedRow, rowCut⟩ :=
    printPrimaryInternal_boundKeyOf (isPrimaryBound_of_isPrimaryKey valid)
  rw [boundKeyOf_of_isPrimaryKey valid] at rowCut
  have cutLow : LowFirstByte (encoded.take maxKeySize) := by
    rw [rowCut]
    exact (keyOf_low valid).take (by decide)
  have encodedLow : LowFirstByte (encoded ++ [0]) := cutLow.of_take.append [0]
  obtain ⟨key, rest, composed, keyEq, keyLength⟩ :=
    composeSecondary_eq (skeyVersionFromReqlVersion version) encodedLow pkShort tagNum
  have longer := maxTruncSize_le_truncSize (skeyVersionFromReqlVersion version) pkShort
  have rowContents : (truncatedKey key).contents =
      topBitSet (skeyVersionFromReqlVersion version) ((keyOf x ++ [0]).take
        (truncSize (skeyVersionFromReqlVersion version) (truncatedKey primaryKey).contents.length)
          ++ rest) := by
    rw [truncatedKey_contents_of_le keyLength, keyEq,
      take_append_eq_of_take_eq rowCut (truncSize_le _ _) [0]]
  refine ⟨key, sindexKeyRange
      (truncatedKey (topBitSet (skeyVersionFromReqlVersion version)
        ((boundKeyOf range.leftBound).take (maxTruncSize (skeyVersionFromReqlVersion version)))))
      (truncatedKey (topBitSet (skeyVersionFromReqlVersion version)
        ((boundKeyOf range.rightBound).take (maxTruncSize (skeyVersionFromReqlVersion version))))),
    ?_, keyLength, ?_, ?_⟩
  · rw [printSecondary_eq_composeSecondary valid printedRow modern]
    exact composed
  · simp only [DatumRange.toSindexKeyrange, truncatedSecondary_boundKeyOf _ leftBound,
      truncatedSecondary_boundKeyOf _ rightBound, bind, Except.bind]
    rfl
  · obtain ⟨first, rest', split, notFull⟩ :=
      storedKey_first_lt valid (skeyVersionFromReqlVersion version) longer rest
    refine sindexKeyRange_containsKey ?_ ?_ (rowContents.trans split) notFull
    · rw [rowContents, boundCut_contents]
      exact storedKey_not_lt_left valid _ longer rest leftBound aboveLeft
    · rw [rowContents, boundCut_contents]
      exact storedKey_below_right valid _ longer rest rightBound belowRight

/-- A row at the closed right bound, with a multi-index tag: the string `"b"` in the range
from `"a"` to `"b"`, stored with the primary key of `false` and tag 7. -/
theorem print_secondary_in_sindex_keyrange_strings :
    ∃ secondaryKey keys,
      (Datum.str (ascii "b")).printSecondary .v2_1 (truncatedKey (ascii "Bf")) (some 7) =
        .ok secondaryKey ∧
      secondaryKey.length ≤ maxKeySize ∧
      DatumRange.toSindexKeyrange ⟨.str (ascii "a"), .closed, .str (ascii "b"), .closed⟩
        (skeyVersionFromReqlVersion .v2_1) = .ok keys ∧
      keys.containsKey (truncatedKey secondaryKey) = true :=
  print_secondary_in_sindex_keyrange .v2_1 (by decide)
    ⟨.str (ascii "a"), .closed, .str (ascii "b"), .closed⟩ (by decide +kernel) (by decide +kernel)
    (.str (ascii "b")) (by decide +kernel) (by decide +kernel) (.bool false) (ascii "Bf")
    (by decide +kernel) (some 7)

end Ql
end RethinkDB
