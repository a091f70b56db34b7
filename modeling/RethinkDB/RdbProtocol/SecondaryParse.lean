import RethinkDB.RdbProtocol.SecondaryKey

/-!
# Reading a secondary key back

`parse_secondary` (`datum.cc`) splits a stored secondary-index key at the two offset bytes at
its end.  The secondary part runs up to the first offset and the primary key from there to the
second; in 1.16+, which it recognises by the top bit of the first byte, the NUL byte after the
primary key is left out.  The tag lies between the second offset and the offsets themselves,
and is read as a `uint64_t` in memory.  `extract_primary`, `extract_tag` and
`key_is_truncated` read their parts of the result.

A key shorter than two bytes has no offsets, and the source reads out of bounds for it; here
the missing bytes read as `0`.  A tag of fewer than eight bytes is read the same way.

The main result, `secondary_key_round_trip`, is that `compose_secondary` and `parse_secondary`
are inverse up to the cut of the secondary key: every part that `mangle_secondary` writes is
found again at the offsets it records.
-/

namespace RethinkDB
namespace Ql

open Btree

/-- `components_t`. -/
structure Components where
  skeyVersion : SkeyVersion
  secondary : List UInt8
  primary : List UInt8
  tagNum : Option UInt64
  deriving DecidableEq

/-- `std::string::substr(pos, len)`, which throws `std::out_of_range` past the end; in the
`THROWS_NOTHING` `parse_secondary` that ends the process. -/
def substr (s : List UInt8) (pos len : Nat) : Except Error (List UInt8) :=
  if pos > s.length then .error .sanityCheck else .ok ((s.drop pos).take len)

/-- The number that bytes stand for in memory, least significant first. -/
def littleEndian : List UInt8 → Nat
  | [] => 0
  | b :: rest => b.toNat + 256 * littleEndian rest

/-- `*reinterpret_cast<const uint64_t *>(tag_str.data())` on a little-endian machine: the first
eight bytes as a `uint64_t`. -/
def decodeTagNum (tagStr : List UInt8) : UInt64 :=
  UInt64.ofNat (littleEndian ((List.range tagSize).map fun i => tagStr.getD i 0))

/-- `parse_secondary`. -/
def parseSecondary (key : List UInt8) : Except Error Components := do
  let startOfPrimary : UInt8 := key.getD (key.length - 2) 0
  let startOfTag : UInt8 := key.getD (key.length - 1) 0
  let secondary ← substr key 0 startOfPrimary.toNat
  -- in 1.16+ the NUL byte after the primary key is no part of it
  let (skeyVersion, endOfPrimary) :=
    if secondary.getD 0 0 &&& 0x80 ≠ 0 then (SkeyVersion.post116, startOfTag - 1)
    else (SkeyVersion.pre116, startOfTag)
  if ¬startOfPrimary < endOfPrimary then throw .sanityCheck
  let primary ← substr key startOfPrimary.toNat (endOfPrimary.toNat - startOfPrimary.toNat)
  -- `key.size() - (start_of_tag + 2)` as a `size_t`
  let tagStr ← substr key startOfTag.toNat
    ((key.length + 2 ^ 64 - (startOfTag.toNat + 2)) % 2 ^ 64)
  let tagNum := if tagStr.length ≠ 0 then some (decodeTagNum tagStr) else none
  return ⟨skeyVersion, secondary, primary, tagNum⟩

/-- `datum_t::extract_all`. -/
def extractAll (str : List UInt8) : Except Error Components := parseSecondary str

/-- `datum_t::extract_primary`. -/
def extractPrimary (secondary : List UInt8) : Except Error (List UInt8) :=
  (·.primary) <$> parseSecondary secondary

/-- `datum_t::extract_secondary`. -/
def extractSecondary (secondaryAndPrimary : List UInt8) : Except Error (List UInt8) :=
  (·.secondary) <$> parseSecondary secondaryAndPrimary

/-- `datum_t::extract_tag`. -/
def extractTag (secondary : List UInt8) : Except Error (Option UInt64) :=
  (·.tagNum) <$> parseSecondary secondary

/-- `datum_t::key_is_truncated`: a key of a multi-index is cut when it has `MAX_KEY_SIZE` bytes,
and any other when it has `MAX_KEY_SIZE - tag_size`. -/
def keyIsTruncated (key : StoreKey) : Except Error Bool := do
  let tag ← extractTag key.contents
  if tag.isSome then return key.contents.length == maxKeySize
  else return key.contents.length == maxKeySize - tagSize


/-! ## The tag in memory -/

theorem littleEndian_append (first second : List UInt8) :
    littleEndian (first ++ second) =
      littleEndian first + 256 ^ first.length * littleEndian second := by
  induction first with
  | nil => simp [littleEndian]
  | cons b rest ih =>
    simp only [List.cons_append, littleEndian, ih, List.length_cons, Nat.pow_succ]
    ring

/-- The first `count` bytes of `n` in memory are `n` below `256 ^ count`. -/
theorem littleEndian_bytes (n count : Nat) :
    littleEndian ((List.range count).map fun i => (n / 256 ^ i % 256).toUInt8) = n % 256 ^ count := by
  induction count with
  | zero => simp [littleEndian, Nat.mod_one]
  | succ count ih =>
    have lastByte : ((n / 256 ^ count % 256).toUInt8).toNat = n / 256 ^ count % 256 :=
      UInt8.toNat_ofNat_of_lt' (Nat.mod_lt _ (by decide))
    rw [List.range_succ, List.map_append, littleEndian_append, ih, List.length_map,
      List.length_range, Nat.mod_pow_succ]
    simp [littleEndian, lastByte]

theorem decodeTagNum_encodeTagNum (tagNum : UInt64) : decodeTagNum (encodeTagNum tagNum) = tagNum := by
  have bytes : (List.range tagSize).map (fun i => (encodeTagNum tagNum).getD i 0) =
      encodeTagNum tagNum := by
    apply List.ext_getElem
    · rw [List.length_map, List.length_range, encodeTagNum_length]
    · intro i inRange _
      rw [List.getElem_map, List.getElem_range, List.getD_eq_getElem]
  rw [decodeTagNum, bytes, encodeTagNum, littleEndian_bytes,
    Nat.mod_eq_of_lt (by simpa [tagSize] using tagNum.toNat_lt), UInt64.ofNat_toNat]

/-! ## Reading the parts back -/


theorem substr_of_le {s : List UInt8} {pos : Nat} (within : pos ≤ s.length) (len : Nat) :
    substr s pos len = .ok ((s.drop pos).take len) := by
  rw [substr, if_neg (Nat.not_lt.mpr within)]

/-- The two offsets at the end of a key. -/
theorem getD_offsets (body : List UInt8) (a b : UInt8) :
    (body ++ [a, b]).getD ((body ++ [a, b]).length - 2) 0 = a ∧
      (body ++ [a, b]).getD ((body ++ [a, b]).length - 1) 0 = b := by
  simp only [List.length_append, List.length_cons, List.length_nil]
  constructor
  · rw [List.getD_append_right _ _ _ _ (by omega), show body.length + (0 + 1 + 1) - 2 - body.length = 0 by omega]
    rfl
  · rw [List.getD_append_right _ _ _ _ (by omega), show body.length + (0 + 1 + 1) - 1 - body.length = 1 by omega]
    rfl

theorem or_top_and_top (first : UInt8) : (first ||| 0x80) &&& 0x80 = 0x80 := by
  rw [← UInt8.toNat_inj, UInt8.toNat_and, UInt8.toNat_or, show (0x80 : UInt8).toNat = 2 ^ 7 from rfl,
    Nat.and_two_pow, Nat.testBit_or, Nat.testBit_two_pow_self, Bool.or_true]
  rfl

/-- The first byte of the secondary part says which version wrote the key. -/
theorem versionBit {secondary : List UInt8} (low : LowFirstByte secondary) (skeyVersion : SkeyVersion) :
    ((topBitSet skeyVersion secondary).getD 0 0 &&& 0x80 ≠ 0) ↔ skeyVersion = .post116 := by
  obtain ⟨first, rest, rfl, lt⟩ := low
  cases skeyVersion with
  | pre116 => simp [topBitSet, and_top_eq_zero lt]
  | post116 => simp [topBitSet, or_top_and_top]

theorem length_mangled (skeyVersion : SkeyVersion) (secondary primary tag : List UInt8)
    (a b : UInt8) :
    (topBitSet skeyVersion (secondary ++ primary) ++
      (if skeyVersion = SkeyVersion.post116 then [0] else []) ++ tag ++ [a, b]).length =
      secondary.length + primary.length + (if skeyVersion = .post116 then 1 else 0) +
        tag.length + 2 := by
  cases skeyVersion <;> simp <;> omega

/-- `parse_secondary` reads back the parts that `mangle_secondary` put together: the offsets
find the secondary part, its first byte the version and so the end of the primary key, and
what stands between that and the offsets is the tag. -/
theorem parseSecondary_mangled (skeyVersion : SkeyVersion) {secondary primary tag : List UInt8}
    (low : LowFirstByte secondary) (nonempty : primary ≠ [])
    (fits : secondary.length + primary.length + (if skeyVersion = .post116 then 1 else 0) ≤ 240)
    (tagSized : tag.length ≤ tagSize) :
    parseSecondary (topBitSet skeyVersion (secondary ++ primary) ++
        (if skeyVersion = .post116 then [0] else []) ++ tag ++
        [secondary.length.toUInt8,
          (secondary.length + primary.length + if skeyVersion = .post116 then 1 else 0).toUInt8]) =
      .ok ⟨skeyVersion, topBitSet skeyVersion secondary, primary,
        if tag.length ≠ 0 then some (decodeTagNum tag) else none⟩ := by
  generalize extraDef : (if skeyVersion = .post116 then 1 else 0) = extra at fits ⊢
  have nul : (if skeyVersion = .post116 then [(0 : UInt8)] else []).length = extra := by
    rw [← extraDef]
    split <;> rfl
  generalize (if skeyVersion = .post116 then [(0 : UInt8)] else []) = terminator at nul ⊢
  generalize keyDef : topBitSet skeyVersion (secondary ++ primary) ++ terminator ++ tag ++
    [secondary.length.toUInt8, (secondary.length + primary.length + extra).toUInt8] = key
  obtain ⟨startP, startT⟩ := getD_offsets (topBitSet skeyVersion (secondary ++ primary) ++
    terminator ++ tag) secondary.length.toUInt8
    (secondary.length + primary.length + extra).toUInt8
  rw [keyDef] at startP startT
  have small : secondary.length < 2 ^ 8 := by omega
  have aNat : secondary.length.toUInt8.toNat = secondary.length := UInt8.toNat_ofNat_of_lt' small
  have bNat : (secondary.length + primary.length + extra).toUInt8.toNat =
      secondary.length + primary.length + extra := UInt8.toNat_ofNat_of_lt' (show _ < 2 ^ 8 by omega)
  have keyEq : key = topBitSet skeyVersion secondary ++ (primary ++ (terminator ++ (tag ++
      [secondary.length.toUInt8, (secondary.length + primary.length + extra).toUInt8]))) := by
    rw [← keyDef, topBitSet_append low.ne_nil]
    simp only [List.append_assoc]
  have secPart : substr key 0 secondary.length = .ok (topBitSet skeyVersion secondary) := by
    rw [substr_of_le (Nat.zero_le _), List.drop_zero, keyEq, List.take_left' (length_topBitSet _ _)]
  -- the version bit tells how far back from the tag the primary key ends
  have endEq : (if skeyVersion = .post116 then
      (SkeyVersion.post116, (secondary.length + primary.length + extra).toUInt8 - 1)
      else (SkeyVersion.pre116, (secondary.length + primary.length + extra).toUInt8)) =
      (skeyVersion, (secondary.length + primary.length).toUInt8) := by
    cases skeyVersion with
    | pre116 => simp only [if_neg (show SkeyVersion.pre116 ≠ .post116 by decide)] at extraDef ⊢; simp [← extraDef]
    | post116 => simp only [if_true] at extraDef ⊢; simp [← extraDef]
  have guard : secondary.length.toUInt8 < (secondary.length + primary.length).toUInt8 := by
    have positive := List.length_pos_of_ne_nil nonempty
    rw [UInt8.lt_iff_toNat_lt, aNat, UInt8.toNat_ofNat_of_lt' (show _ < 2 ^ 8 by omega)]
    omega
  have primPart : substr key secondary.length
      ((secondary.length + primary.length).toUInt8.toNat - secondary.length) = .ok primary := by
    rw [UInt8.toNat_ofNat_of_lt' (show _ < 2 ^ 8 by omega), Nat.add_sub_cancel_left,
      substr_of_le (by rw [keyEq]; simp), keyEq, List.drop_left' (length_topBitSet _ _),
      List.take_left' rfl]
  have keyTag : key = (topBitSet skeyVersion secondary ++ primary ++ terminator) ++ (tag ++
      [secondary.length.toUInt8, (secondary.length + primary.length + extra).toUInt8]) := by
    rw [keyEq]
    simp only [List.append_assoc]
  have frontLength : (topBitSet skeyVersion secondary ++ primary ++ terminator).length =
      secondary.length + primary.length + extra := by
    simp only [List.length_append, length_topBitSet, nul]
  -- the tag runs up to the two offset bytes: a length that does not wrap around
  have tagAmount : (key.length + 2 ^ 64 - (secondary.length + primary.length + extra + 2)) %
      2 ^ 64 = tag.length := by
    have keyLength : key.length = secondary.length + primary.length + extra + tag.length + 2 := by
      rw [keyTag, List.length_append, frontLength]
      simp only [List.length_append, List.length_cons, List.length_nil]
      omega
    unfold tagSize at tagSized
    rw [keyLength, show secondary.length + primary.length + extra + tag.length + 2 + 2 ^ 64 -
      (secondary.length + primary.length + extra + 2) = tag.length + 2 ^ 64 by omega,
      Nat.add_mod_right, Nat.mod_eq_of_lt (by omega)]
  have tagPart : substr key (secondary.length + primary.length + extra) tag.length = .ok tag := by
    rw [substr_of_le (by rw [keyTag, List.length_append, frontLength]; omega), keyTag,
      List.drop_left' frontLength, List.take_left' rfl]
  unfold parseSecondary
  dsimp only
  rw [startP, startT, aNat, bNat, secPart]
  simp only [bind, Except.bind, versionBit low]
  rw [endEq]
  dsimp only
  rw [if_neg (not_not.mpr guard), primPart, tagAmount, tagPart]
  rfl

example : parseSecondary [0xD3, 0x61, 0, 0x53, 0x62, 0, 3, 6] =
    .ok ⟨.post116, [0xD3, 0x61, 0], [0x53, 0x62], none⟩ := by
  decide

/-! ## Composing and parsing -/

/-- The bytes of the tag that `compose_secondary` writes: the eight bytes of a tag number, or
none. -/
theorem tagString_length (tagNum : Option UInt64) :
    ((tagNum.map encodeTagNum).getD []).length ≤ tagSize := by
  cases tagNum <;> simp [encodeTagNum_length, tagSize]

/-- Reading the tag string back gives the tag number it was written from. -/
theorem decodeTagString (tagNum : Option UInt64) :
    (if ((tagNum.map encodeTagNum).getD []).length ≠ 0 then
      some (decodeTagNum ((tagNum.map encodeTagNum).getD [])) else none) = tagNum := by
  cases tagNum with
  | none => rfl
  | some tagNum => simp [encodeTagNum_length, tagSize, decodeTagNum_encodeTagNum]

/-- A composed key is parsed back into its version, its cut and tagged secondary part, its
primary key and its tag; and it is as long as a truncated key exactly when the secondary key
had to be cut. -/
theorem secondary_key_round_trip (skeyVersion : SkeyVersion) {secondaryKey : List UInt8}
    (low : LowFirstByte secondaryKey) (primaryKey : StoreKey)
    (nonempty : 1 ≤ primaryKey.contents.length)
    (short : primaryKey.contents.length ≤ maxPrimaryKeySize) (tagNum : Option UInt64) :
    ∃ key, composeSecondary skeyVersion secondaryKey primaryKey tagNum = .ok key ∧
      key.length ≤ maxKeySize ∧
      extractAll key = .ok ⟨skeyVersion, topBitSet skeyVersion
        (secondaryKey.take (truncSize skeyVersion primaryKey.contents.length)),
        primaryKey.contents, tagNum⟩ ∧
      extractPrimary key = .ok primaryKey.contents ∧
      extractTag key = .ok tagNum ∧
      ∀ stored : StoreKey, stored.contents = key →
        keyIsTruncated stored =
          .ok (decide (truncSize skeyVersion primaryKey.contents.length ≤ secondaryKey.length)) := by
  obtain ⟨positive, total⟩ := truncSize_bounds skeyVersion short
  have fits := truncated_fits skeyVersion short secondaryKey
  have parsed := parseSecondary_mangled skeyVersion (low.take positive)
    (List.ne_nil_of_length_pos nonempty) fits (tagString_length tagNum)
  rw [decodeTagString tagNum] at parsed
  obtain ⟨key, composed, keyDef⟩ : ∃ key,
      composeSecondary skeyVersion secondaryKey primaryKey tagNum = .ok key ∧ key = _ :=
    ⟨_, composeSecondary_ok skeyVersion low short tagNum, rfl⟩
  rw [← keyDef] at parsed
  have keyLength := congrArg List.length keyDef
  rw [length_mangled, List.length_take] at keyLength
  have tagged : extractTag key = .ok tagNum := by
    rw [extractTag, parsed]
    rfl
  refine ⟨key, composed, ?_, parsed, ?_, tagged, ?_⟩
  · have tagShort := tagString_length tagNum
    unfold tagSize at tagShort
    rw [keyLength]
    unfold maxKeySize
    omega
  · rw [extractPrimary, parsed]
    rfl
  · -- the key is as long as a truncated one exactly when the cut took all of its room
    intro stored contents
    rw [keyIsTruncated, contents, tagged]
    cases tagNum with
    | none =>
      simp only [Option.map_none, Option.getD_none, List.length_nil] at keyLength
      simp only [bind, Except.bind, Option.isSome_none, Bool.false_eq_true, if_false]
      congr 1
      rw [Bool.eq_iff_iff, beq_iff_eq, decide_eq_true_iff, keyLength]
      unfold maxKeySize tagSize
      omega
    | some tagNum =>
      simp only [Option.map_some, Option.getD_some, encodeTagNum_length] at keyLength
      simp only [bind, Except.bind, Option.isSome_some, if_true]
      congr 1
      rw [Bool.eq_iff_iff, beq_iff_eq, decide_eq_true_iff, keyLength]
      unfold maxKeySize tagSize
      omega

theorem secondary_key_round_trip_tagged :
    ∃ key, composeSecondary .post116 (ascii "a") (truncatedKey (ascii "Sb")) (some 7) = .ok key ∧
      key.length ≤ maxKeySize ∧
      extractAll key = .ok ⟨.post116, topBitSet .post116
        ((ascii "a").take (truncSize .post116 (truncatedKey (ascii "Sb")).contents.length)),
        (truncatedKey (ascii "Sb")).contents, some 7⟩ ∧
      extractPrimary key = .ok (truncatedKey (ascii "Sb")).contents ∧
      extractTag key = .ok (some 7) ∧
      ∀ stored : StoreKey, stored.contents = key →
        keyIsTruncated stored = .ok (decide (truncSize .post116
          (truncatedKey (ascii "Sb")).contents.length ≤ (ascii "a").length)) :=
  secondary_key_round_trip .post116 ⟨0x61, [], rfl, by decide⟩ (truncatedKey (ascii "Sb"))
    (by decide) (by decide) (some 7)

end Ql
end RethinkDB
