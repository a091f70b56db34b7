import RethinkDB.RdbProtocol.Compare
import RethinkDB.Foundations.Printf
import RethinkDB.Btree.Keys

/-!
# Primary keys

`print_primary` writes a datum as the B-tree key of its row.  Each type writes a tag
and then its contents: `A` and the elements of an array, each followed by a NUL byte;
`B` and `t` or `f`; `N`, the sixteen hexadecimal digits of the order key of the double
and `#` with its `%.20g` text; `PBINARY:` and the bytes with `0x00` and `0x01` escaped;
`PTIME:` and the number key of the `epoch_time`; `S` and the bytes of a string.  Strings
and binaries are cut where the key reaches `MAX_KEY_SIZE`, and an array stops taking
elements there; `print_primary` refuses a key longer than `MAX_PRIMARY_KEY_SIZE`.

The encoders are modelled as the source writes them, appending to `str_out`, with the
`size_t` arithmetic of `MAX_KEY_SIZE - str_out->size()`, which wraps when the key has
already grown past `MAX_KEY_SIZE`.  Beside them `keyOf` is the key written without any
cut; a key short enough for `print_primary` is that key.
-/

namespace RethinkDB
namespace Ql

open Bytes Btree

/-- `rdb_protocol::MAX_PRIMARY_KEY_SIZE`. -/
def maxPrimaryKeySize : Nat := 128

/-- `MAX_KEY_SIZE - str_out->size()` as `size_t`. -/
def roomLeft (strOut : List UInt8) : Nat := (maxKeySize + 2 ^ 64 - strOut.length) % 2 ^ 64

/-- The key of a number: `N`, the order key of the double in sixteen hexadecimal digits,
`#` and the double as `%.20g`, after `-0.0` has become `0.0`. -/
def numberKey (x : Binary64) : List UInt8 :=
  -- `if (value == -0.0) value = std::abs(value);`
  let value := if x.value = 0 then x.abs else x
  let packed := value.bits
  let mangled := if packed &&& ((1 : UInt64) <<< 63) ≠ 0 then ~~~packed else packed ^^^ ((1 : UInt64) <<< 63)
  ascii "N" ++ Printf.formatUnsigned 16 16 mangled.toNat ++ ascii "#" ++ Printf.formatG 20 value

/-- `datum_t::num_to_str_key`. -/
def numToStrKey (strOut : List UInt8) : Datum → Except Error (List UInt8)
  | .num x => pure (strOut ++ numberKey x)
  | _ => throw .sanityCheck

/-- The escape of `binary_to_str_key`: `\x00` is `\x01\x01` and `\x01` is `\x01\x02`. -/
def escapeByte (b : UInt8) : List UInt8 :=
  if b = 0 then [1, 1] else if b = 1 then [1, 2] else [b]

/-- `datum_t::binary_to_str_key`: at most `MAX_KEY_SIZE - size` bytes of the binary are
escaped, counted before escaping. -/
def binaryToStrKey (strOut : List UInt8) (d : Datum) : Except Error (List UInt8) := do
  let key ← d.asBinary
  let strOut := strOut ++ ascii "PBINARY:"
  let toAppend := min (roomLeft strOut) key.length
  return strOut ++ (key.take toAppend).flatMap escapeByte

/-- `datum_t::str_to_str_key`. -/
def strToStrKey (strOut : List UInt8) : Datum → Except Error (List UInt8)
  | .str s =>
      let strOut := strOut ++ ascii "S"
      let toAppend := min (roomLeft strOut) s.length
      pure (strOut ++ s.take toAppend)
  | _ => throw .sanityCheck

/-- `datum_t::bool_to_str_key`. -/
def boolToStrKey (strOut : List UInt8) : Datum → Except Error (List UInt8)
  | .bool b => pure (strOut ++ ascii "B" ++ ascii (if b then "t" else "f"))
  | _ => throw .sanityCheck

/-- The key of `r.maxval`: `store_key_t::max()` with the top bit of its first byte
cleared, so that no key has its top bit set. -/
def maxvalKey : List UInt8 :=
  match StoreKey.max.contents with
  | first :: rest => (first &&& 0x7F) :: rest
  | [] => []

/-- `datum_t::extrema_to_str_key`. -/
def extremaToStrKey (strOut : List UInt8) : Datum → Except Error (List UInt8)
  | .minval => pure (strOut ++ [0])
  | .maxval => pure (strOut ++ maxvalKey)
  | _ => throw .sanityCheck

/-- `pseudo::time_to_str_key`. -/
def timeToStrKey (strOut : List UInt8) (d : Datum) : Except Error (List UInt8) := do
  let strOut := strOut ++ ascii "P" ++ timeString ++ ascii ":"
  match ← d.getField epochTimeKey .throw with
  | some epochTime => numToStrKey strOut epochTime
  | none => throw .unreachable

/-- `datum_t::pt_to_str_key`. -/
def ptToStrKey (strOut : List UInt8) (d : Datum) : Except Error (List UInt8) := do
  if !d.isPtype then throw .sanityCheck
  let reqlType ← d.getReqlType
  if reqlType = timeString then timeToStrKey strOut d
  else if reqlType = geometryString then throw .geometryKey
  else
    let typeName ← d.getTypeName .no
    throw (.pseudotypeKey typeName)

mutual

/-- The loop of `array_to_str_key`: while the key is shorter than `MAX_KEY_SIZE`, the
next element and a NUL byte. -/
def arrayItemsToStrKey (strOut : List UInt8) : List Datum → Except Error (List UInt8)
  | [] => pure strOut
  | item :: items =>
      if strOut.length < maxKeySize then do
        let strOut ← itemToStrKey strOut item
        arrayItemsToStrKey (strOut ++ [0]) items
      else pure strOut

/-- The switch on the type of an element in the loop of `array_to_str_key`.  For a
nested array it runs `array_to_str_key`, written out here (`A`, then the loop) so that
the recursion is on the elements. -/
def itemToStrKey (strOut : List UInt8) : Datum → Except Error (List UInt8)
  | .minval => extremaToStrKey strOut .minval
  | .maxval => extremaToStrKey strOut .maxval
  | .num x => numToStrKey strOut (.num x)
  | .str s => strToStrKey strOut (.str s)
  | .binary data => binaryToStrKey strOut (.binary data)
  | .bool b => boolToStrKey strOut (.bool b)
  | .array items => arrayItemsToStrKey (strOut ++ ascii "A") items
  | .object pairs =>
      if (Datum.object pairs).isPtype then ptToStrKey strOut (.object pairs)
      else throw (.arrayKeyType (.object pairs))
  | .null => throw (.arrayKeyType .null)

end

/-- `datum_t::array_to_str_key`. -/
def arrayToStrKey (strOut : List UInt8) : Datum → Except Error (List UInt8)
  | .array items => arrayItemsToStrKey (strOut ++ ascii "A") items
  | _ => throw .sanityCheck

theorem itemToStrKey_array (strOut : List UInt8) (items : List Datum) :
    itemToStrKey strOut (.array items) = arrayToStrKey strOut (.array items) := by
  simp [itemToStrKey, arrayToStrKey]

/-- `datum_t::print_primary_internal`. -/
def printPrimaryInternal (d : Datum) : Except Error (List UInt8) :=
  match d with
  | .minval | .maxval => extremaToStrKey [] d
  | .num _ => numToStrKey [] d
  | .str _ => strToStrKey [] d
  | .binary _ => binaryToStrKey [] d
  | .bool _ => boolToStrKey [] d
  | .array _ => arrayToStrKey [] d
  | .object _ => if d.isPtype then ptToStrKey [] d else throw (.primaryKeyType d)
  | .null => throw (.primaryKeyType d)

/-- `datum_t::print_primary`. -/
def printPrimary (d : Datum) : Except Error (List UInt8) := do
  let s ← printPrimaryInternal d
  if s.length > maxPrimaryKeySize then throw (.primaryKeyTooLong d)
  return s

example : printPrimary (.array [.bool true, .str (ascii "ab")]) =
    .ok (ascii "ABt" ++ [0] ++ ascii "Sab" ++ [0]) := by decide +kernel
example : printPrimary (.num ⟨0x8000000000000000⟩) = printPrimary (.num ⟨0⟩) := by decide +kernel
example : printPrimary (.num ⟨0x3FF0000000000000⟩) = .ok (ascii "Nbff0000000000000#1") := by
  decide +kernel
example : printPrimary (.binary [0, 1, 2]) = .ok (ascii "PBINARY:" ++ [1, 1, 1, 2, 2]) := by
  decide +kernel

/-! ## The key without cuts -/

mutual

/-- The key `print_primary_internal` writes for a valid key when nothing is cut. -/
def keyOf : Datum → List UInt8
  | .minval => [0]
  | .maxval => maxvalKey
  | .num x => numberKey x
  | .str s => ascii "S" ++ s
  | .binary data => ascii "PBINARY:" ++ data.flatMap escapeByte
  | .bool b => ascii "B" ++ ascii (if b then "t" else "f")
  | .array items => ascii "A" ++ itemsKey items
  | .object pairs =>
      match fieldOf pairs epochTimeKey with
      | some (.num epochTime) => ascii "PTIME:" ++ numberKey epochTime
      | _ => []
  | .null => []

/-- The elements of an array key, each followed by a NUL byte. -/
def itemsKey : List Datum → List UInt8
  | [] => []
  | item :: items => keyOf item ++ [0] ++ itemsKey items

end

/-- A time value: sorted keys, `$reql_type$` is `TIME` and `epoch_time` a finite number. -/
def isTime (pairs : List (List UInt8 × Datum)) : Bool :=
  decide (SortedKeys pairs) && decide (fieldOf pairs reqlTypeString = some (.str timeString)) &&
    match fieldOf pairs epochTimeKey with
    | some (.num epochTime) => decide epochTime.IsFinite
    | _ => false

mutual

/-- A valid primary key: a finite number, a string without NUL, a boolean, a binary
value, a time, or an array of valid primary keys. -/
def Datum.isPrimaryKey : Datum → Bool
  | .num x => decide x.IsFinite
  | .str s => decide ((0 : UInt8) ∉ s)
  | .bool _ | .binary _ => true
  | .object pairs => isTime pairs
  | .array items => allPrimaryKeys items
  | .minval | .maxval | .null => false

def allPrimaryKeys : List Datum → Bool
  | [] => true
  | item :: items => item.isPrimaryKey && allPrimaryKeys items

end

/-! ## Cuts happen only past `MAX_KEY_SIZE` -/

/-- An encoder that should append `piece` to `strOut` either appends it whole or cuts it
somewhere, leaving at least `MAX_KEY_SIZE` bytes that agree with the whole key. -/
def AppendsUpToCut (strOut piece out : List UInt8) : Prop :=
  strOut <+: out ∧ out.take maxKeySize = (strOut ++ piece).take maxKeySize ∧
    (out = strOut ++ piece ∨ maxKeySize ≤ out.length)

namespace AppendsUpToCut

variable {strOut piece out : List UInt8}

theorem whole (strOut piece : List UInt8) : AppendsUpToCut strOut piece (strOut ++ piece) :=
  ⟨List.prefix_append _ _, rfl, Or.inl rfl⟩

/-- A key that has already reached `MAX_KEY_SIZE` may stop. -/
theorem stop (full : maxKeySize ≤ strOut.length) (piece : List UInt8) :
    AppendsUpToCut strOut piece strOut := by
  refine ⟨List.prefix_refl _, ?_, Or.inr full⟩
  rw [List.take_append_of_le_length full]

/-- Strings that agree up to `n` bytes are equal or both at least `n` long. -/
theorem eq_or_le_of_take_eq {a b : List UInt8} {n : Nat} (same : a.take n = b.take n) :
    a = b ∨ (n ≤ a.length ∧ n ≤ b.length) := by
  by_cases short : a.length < n
  · have aTake : a.take n = a := List.take_of_length_le (by omega)
    have bLength := congrArg List.length same
    simp only [List.length_take, aTake] at bLength
    have bShort : b.length < n := by omega
    left
    rw [← aTake, same, List.take_of_length_le (by omega)]
  · by_cases shortB : b.length < n
    · have bTake : b.take n = b := List.take_of_length_le (by omega)
      have aLength := congrArg List.length same
      simp only [List.length_take, bTake] at aLength
      omega
    · right
      omega

/-- Appending after a cut piece, with the separator between them. -/
theorem append (first : AppendsUpToCut strOut piece out) {rest final : List UInt8}
    (separator : List UInt8) (second : AppendsUpToCut (out ++ separator) rest final) :
    AppendsUpToCut strOut (piece ++ separator ++ rest) final := by
  obtain ⟨prefixOut, takeOut, wholeOut⟩ := first
  obtain ⟨prefixFinal, takeFinal, wholeFinal⟩ := second
  refine ⟨(prefixOut.trans (List.prefix_append _ _)).trans prefixFinal, ?_, ?_⟩
  · rw [takeFinal]
    rcases eq_or_le_of_take_eq takeOut with same | ⟨longOut, longWhole⟩
    · simp [same]
    · rw [List.append_assoc, List.take_append_of_le_length longOut]
      simp only [← List.append_assoc]
      rw [List.append_assoc (strOut ++ piece), List.take_append_of_le_length longWhole, takeOut]
  · rcases wholeOut with same | long
    · rcases wholeFinal with sameFinal | longFinal
      · left
        simp [sameFinal, same]
      · exact Or.inr longFinal
    · right
      have := prefixFinal.length_le
      simp only [List.length_append] at this
      omega

/-- The first `k` bytes of a piece, when `k` covers the piece or reaches `MAX_KEY_SIZE`. -/
theorem take {k : Nat} (enough : piece.length ≤ k ∨ maxKeySize ≤ strOut.length + k) :
    AppendsUpToCut strOut piece (strOut ++ piece.take k) := by
  rcases enough with covers | reaches
  · rw [List.take_of_length_le covers]
    exact whole strOut piece
  · refine ⟨List.prefix_append _ _, ?_, ?_⟩
    · by_cases short : piece.length ≤ k
      · rw [List.take_of_length_le short]
      · rw [List.take_append, List.take_append, List.take_take]
        congr 2
        omega
    · by_cases short : piece.length ≤ k
      · left
        rw [List.take_of_length_le short]
      · right
        simp only [List.length_append, List.length_take]
        omega

/-- A prefix of the whole key that is the whole key or reaches `MAX_KEY_SIZE`. -/
theorem of_prefix (starts : strOut <+: out) (within : out <+: strOut ++ piece)
    (wholeOrLong : out = strOut ++ piece ∨ maxKeySize ≤ out.length) :
    AppendsUpToCut strOut piece out := by
  refine ⟨starts, ?_, wholeOrLong⟩
  rcases wholeOrLong with same | long
  · rw [same]
  · obtain ⟨rest, split⟩ := within
    rw [← split, List.take_append_of_le_length long]

/-- Moving bytes from the start of the piece onto the key written so far. -/
theorem prepend {tag : List UInt8} (cut : AppendsUpToCut (strOut ++ tag) piece out) :
    AppendsUpToCut strOut (tag ++ piece) out := by
  obtain ⟨starts, takes, wholeOrLong⟩ := cut
  exact ⟨(List.prefix_append _ _).trans starts, by simpa using takes, by simpa using wholeOrLong⟩

/-- Code words for the first `k` bytes of `data`, when `k` covers `data` or reaches
`MAX_KEY_SIZE`. -/
theorem flatMap_take {code : UInt8 → List UInt8} (nonempty : ∀ b, code b ≠ [])
    {data : List UInt8} {k : Nat} (enough : data.length ≤ k ∨ maxKeySize ≤ strOut.length + k) :
    AppendsUpToCut strOut (data.flatMap code) (strOut ++ (data.take k).flatMap code) := by
  have grows : (data.take k).length ≤ ((data.take k).flatMap code).length := by
    rw [List.length_flatMap]
    induction (data.take k) with
    | nil => simp
    | cons b rest ih =>
        have : 0 < (code b).length := List.length_pos_iff.mpr (nonempty b)
        simp only [List.length_cons, List.map_cons, List.sum_cons]
        omega
  refine of_prefix (List.prefix_append _ _) ?_ ?_
  · rw [← List.take_append_drop k data, List.flatMap_append, ← List.append_assoc]
    simp
  · rcases enough with covers | reaches
    · left
      rw [List.take_of_length_le covers]
    · by_cases short : data.length ≤ k
      · left
        rw [List.take_of_length_le short]
      · right
        simp only [List.length_append]
        have : (data.take k).length = k := by simp; omega
        omega

end AppendsUpToCut

/-- `MAX_KEY_SIZE - size` as `size_t` covers what is left or reaches `MAX_KEY_SIZE`. -/
theorem roomLeft_enough (base : List UInt8) (n : Nat) :
    n ≤ min (roomLeft base) n ∨ maxKeySize ≤ base.length + min (roomLeft base) n := by
  unfold roomLeft maxKeySize
  by_cases fits : base.length ≤ 250
  · have : (250 + 2 ^ 64 - base.length) % 2 ^ 64 = 250 - base.length := by omega
    rw [this]
    omega
  · right
    omega

theorem isTime_fields {pairs : List (List UInt8 × Datum)} (time : isTime pairs = true) :
    SortedKeys pairs ∧ fieldOf pairs reqlTypeString = some (.str timeString) ∧
      ∃ epochTime, fieldOf pairs epochTimeKey = some (.num epochTime) ∧ epochTime.IsFinite := by
  unfold isTime at time
  simp only [Bool.and_eq_true, decide_eq_true_eq] at time
  obtain ⟨⟨sorted, reqlType⟩, epoch⟩ := time
  refine ⟨sorted, reqlType, ?_⟩
  split at epoch
  · rename_i epochTime found
    exact ⟨epochTime, found, by simpa using epoch⟩
  · cases epoch

/-- A valid time's key: `PTIME:` and the number key of its `epoch_time`. -/
theorem ptToStrKey_time {pairs : List (List UInt8 × Datum)} (time : isTime pairs = true)
    (strOut : List UInt8) :
    ptToStrKey strOut (.object pairs) = .ok (strOut ++ keyOf (.object pairs)) := by
  obtain ⟨-, reqlType, epochTime, epoch, -⟩ := isTime_fields time
  have ptype : (Datum.object pairs).isPtype = true := by simp [Datum.isPtype, reqlType]
  simp only [ptToStrKey, ptype, Datum.getReqlType, reqlType, timeToStrKey, Datum.getField,
    epoch, numToStrKey, keyOf]
  simp
  rfl

mutual

/-- The element switch writes a valid key whole, unless it passes `MAX_KEY_SIZE`. -/
theorem itemToStrKey_appends (strOut : List UInt8) :
    ∀ item : Datum, item.isPrimaryKey = true →
      ∃ out, itemToStrKey strOut item = .ok out ∧ AppendsUpToCut strOut (keyOf item) out
  | .num x, _ => ⟨_, rfl, AppendsUpToCut.whole strOut _⟩
  | .str s, _ =>
      ⟨_, rfl, (AppendsUpToCut.take (roomLeft_enough (strOut ++ ascii "S") s.length)).prepend⟩
  | .binary data, _ =>
      ⟨_, rfl, (AppendsUpToCut.flatMap_take (by intro b; unfold escapeByte; split_ifs <;> simp)
        (roomLeft_enough (strOut ++ ascii "PBINARY:") data.length)).prepend⟩
  | .bool b, _ => ⟨_, rfl, by simpa [keyOf] using AppendsUpToCut.whole strOut (keyOf (.bool b))⟩
  | .array items, valid => by
      obtain ⟨out, written, cut⟩ :=
        arrayItemsToStrKey_appends (strOut ++ ascii "A") items (by simpa [Datum.isPrimaryKey] using valid)
      exact ⟨out, written, cut.prepend⟩
  | .object pairs, valid => by
      have time : isTime pairs = true := by simpa [Datum.isPrimaryKey] using valid
      have ptype : (Datum.object pairs).isPtype = true := by
        simp [Datum.isPtype, (isTime_fields time).2.1]
      refine ⟨_, ?_, AppendsUpToCut.whole strOut _⟩
      simp only [itemToStrKey, ptype, if_true, ptToStrKey_time time]
  | .minval, valid | .maxval, valid | .null, valid => by simp [Datum.isPrimaryKey] at valid

/-- The loop writes the elements whole, unless the key passes `MAX_KEY_SIZE`. -/
theorem arrayItemsToStrKey_appends (strOut : List UInt8) :
    ∀ items : List Datum, allPrimaryKeys items = true →
      ∃ out, arrayItemsToStrKey strOut items = .ok out ∧ AppendsUpToCut strOut (itemsKey items) out
  | [], _ => ⟨strOut, rfl, by simpa [itemsKey] using AppendsUpToCut.whole strOut []⟩
  | item :: items, valid => by
      simp only [allPrimaryKeys, Bool.and_eq_true] at valid
      by_cases room : strOut.length < maxKeySize
      · obtain ⟨middle, writtenItem, cutItem⟩ := itemToStrKey_appends strOut item valid.1
        obtain ⟨out, writtenItems, cutItems⟩ :=
          arrayItemsToStrKey_appends (middle ++ [0]) items valid.2
        refine ⟨out, ?_, by simpa [itemsKey] using cutItem.append [0] cutItems⟩
        simp only [arrayItemsToStrKey, room, if_true, writtenItem]
        exact writtenItems
      · refine ⟨strOut, ?_, AppendsUpToCut.stop (by omega) _⟩
        simp only [arrayItemsToStrKey, room, if_false]
        rfl

end

/-- For a valid key `print_primary_internal` is the element switch from an empty key. -/
theorem printPrimaryInternal_eq_itemToStrKey {d : Datum} (valid : d.isPrimaryKey = true) :
    printPrimaryInternal d = itemToStrKey [] d := by
  cases d with
  | object pairs =>
      have time : isTime pairs = true := by simpa [Datum.isPrimaryKey] using valid
      have ptype : (Datum.object pairs).isPtype = true := by
        simp [Datum.isPtype, (isTime_fields time).2.1]
      simp [printPrimaryInternal, itemToStrKey, ptype]
  | array items => rfl
  | minval | maxval | null => simp [Datum.isPrimaryKey] at valid
  | _ => rfl

/-- A key that `print_primary` accepts was written whole. -/
theorem printPrimary_eq_keyOf {d : Datum} (valid : d.isPrimaryKey = true) {key : List UInt8}
    (printed : printPrimary d = .ok key) : key = keyOf d := by
  obtain ⟨out, written, -, -, wholeOrLong⟩ := itemToStrKey_appends [] d valid
  rw [printPrimary, printPrimaryInternal_eq_itemToStrKey valid, written] at printed
  simp only [bind, Except.bind] at printed
  split at printed
  · cases printed
  · cases printed
    rcases wholeOrLong with same | long
    · simpa using same
    · rename_i short
      simp [maxPrimaryKeySize, maxKeySize] at short long
      omega

theorem printPrimary_length_le {d : Datum} {key : List UInt8} (printed : printPrimary d = .ok key) :
    key.length ≤ maxPrimaryKeySize := by
  simp only [printPrimary, bind, Except.bind] at printed
  split at printed
  · cases printed
  · split at printed
    · cases printed
    · rename_i short
      cases printed
      omega

/-! ## Ranges of datums -/

/-- `datum_range_t`. -/
structure DatumRange where
  leftBound : Datum
  leftBoundType : BoundT
  rightBound : Datum
  rightBoundType : BoundT

/-- `datum_range_t::contains`. -/
def DatumRange.contains (range : DatumRange) (version : ReqlVersion) (val : Datum) :
    Except Error Bool := do
  let leftCmp ← cmp version range.leftBound val
  let rightCmp ← cmp version range.rightBound val
  return (decide (leftCmp < 0) || (leftCmp == 0 && range.leftBoundType == .closed)) &&
    (decide (rightCmp > 0) || (rightCmp == 0 && range.rightBoundType == .closed))

/-- `store_key_t(s)` after `if (s.size() > MAX_KEY_SIZE) s.erase(MAX_KEY_SIZE)`. -/
def truncatedKey (s : List UInt8) : StoreKey :=
  ⟨s.take maxKeySize, by simp⟩

/-- `datum_range_t::to_primary_keyrange`. -/
def DatumRange.toPrimaryKeyrange (range : DatumRange) : Except Error KeyRange := do
  let lbStr ← printPrimaryInternal range.leftBound
  let rbStr ← printPrimaryInternal range.rightBound
  return KeyRange.make range.leftBoundType (truncatedKey lbStr) range.rightBoundType
    (truncatedKey rbStr)

end Ql
end RethinkDB
