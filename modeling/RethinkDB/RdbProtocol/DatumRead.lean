import RethinkDB.RdbProtocol.DatumWrite

/-!
# Reading a datum

`datum_deserialize` reads a datum from a stream and `datum_deserialize_from_buf` from a buffer
at an offset; an array or object read from a buffer stays a reference to its serialization,
whose elements `get` and `get_pair` find through its offset table.  This module shows that
every valid value comes back from its serialization: from a stream with what follows left
over, from a buffer as `Datum.storedOf` says, and, through `arr_size`, `get`, `obj_size` and
`get_pair`, as the value itself (`DatumT.observe`).

Writing such a stored value again is the other half of the format: checked, the writer
re-reads every element and gives back the value's serialization and flags; unchecked, it
copies the bytes, and the flags of what lies inside are not raised.
-/

namespace RethinkDB
namespace Ql

open Containers.Archive

/-! ## The type byte and the scalars -/

theorem deserializeDatumType_serializeDatumType (type : DatumSerializedType) (rest : List UInt8) :
    deserializeDatumType (serializeDatumType type ++ rest) = .ok (type, rest) := by
  cases type <;> rfl

/-- The `uint64_t` of the magnitude of an integer that `number_as_integer` accepts. -/
theorem uint64OfInt64_natAbs {i : Int} (nonneg : 0 ≤ i) (small : i.natAbs ≤ 2 ^ 53) :
    uint64OfInt64 i = i.natAbs := by
  rw [uint64OfInt64_of_nonneg nonneg (by omega)]
  omega

/-- A finite number reads back from its serialization. -/
theorem datumDeserialize_numberBytes {x : Binary64} (finite : x.IsFinite) (fuel : Nat) (rest : List UInt8) :
    datumDeserialize (fuel + 1) (numberBytes x ++ rest) = .ok (.rNum x, rest) := by
  unfold numberBytes
  cases integer : numberAsInteger x with
  | none =>
    have word : (⟨x.bits.toNat.toUInt64⟩ : Binary64) = x := by simp
    simp only [List.append_assoc, datumDeserialize, deserializeDatumType_serializeDatumType,
      deserializeUniversal_serializeUniversal (show x.bits.toNat < 256 ^ 8 from x.toNat_lt), word,
      DatumT.ofNum, if_pos finite]
  | some i =>
    obtain ⟨_, value, small⟩ := numberAsInteger_spec integer
    -- The reader's check that the magnitude is at most 2 ^ 53 passes.
    have bounded : ¬(Binary64.ofNatExact i.natAbs).value > 2 ^ 53 := by
      rw [Binary64.value_ofNatExact small, gt_iff_lt, not_lt]
      exact_mod_cast small
    cases sign : x.signBit
    · have nonneg := nonneg_of_numberAsInteger integer sign
      have read : Binary64.ofNatExact i.natAbs = x := by
        refine Binary64.eq_of_signBit_value_eq (by rw [Binary64.signBit_ofNatExact small, sign]) ?_
        rw [Binary64.value_ofNatExact small, ← value, Nat.cast_natAbs, Int.cast_abs, abs_of_nonneg (by exact_mod_cast nonneg)]
      have check : ¬x.value > 2 ^ 53 := read ▸ bounded
      simp only [Bool.false_eq_true, if_false, List.append_assoc, datumDeserialize,
        deserializeDatumType_serializeDatumType, serializeVarintUint64, uint64OfInt64_natAbs nonneg small,
        deserializeVarintUint64_serialize (show i.natAbs < 2 ^ 64 by omega), reduceCtorEq, read,
        if_neg check, DatumT.ofNum, if_pos finite]
    · have nonpos := nonpos_of_numberAsInteger integer sign
      have read : (Binary64.ofNatExact i.natAbs).neg = x := by
        refine Binary64.eq_of_signBit_value_eq (by simp [Binary64.signBit_ofNatExact small, sign]) ?_
        rw [Binary64.value_neg, Binary64.value_ofNatExact small, ← value, Nat.cast_natAbs, Int.cast_abs,
          abs_of_nonpos (by exact_mod_cast nonpos), neg_neg]
      simp only [if_true, List.append_assoc, datumDeserialize,
        deserializeDatumType_serializeDatumType, serializeVarintUint64,
        uint64OfInt64_natAbs (Int.neg_nonneg_of_nonpos nonpos) (by rwa [Int.natAbs_neg]), Int.natAbs_neg,
        deserializeVarintUint64_serialize (show i.natAbs < 2 ^ 64 by omega), if_neg bounded, read,
        DatumT.ofNum, if_pos finite]

/-- A string reads back into a buffer of its own. -/
theorem datumStringDeserialize_stringBytes {bytes : List UInt8} (small : bytes.length < 2 ^ 64)
    (rest : List UInt8) :
    datumStringDeserialize (stringBytes bytes ++ rest) = .ok (⟨stringBytes bytes ++ []⟩, rest) := by
  simp only [datumStringDeserialize, stringBytes, serializeVarintUint64, List.append_assoc,
    deserializeVarintUint64_serialize small, forceRead, List.take_left', List.drop_left', Nat.lt_irrefl,
    if_false, List.append_nil]

/-- The serialization of an array or object reads back as a reference to a buffer of its own,
if it is shorter than `2 ^ 63` bytes. -/
theorem datumDeserialize_buf {type : DatumSerializedType} (kind : type = .bufRArray ∨ type = .bufRObject)
    {inner : List UInt8} (fits : (serializeVarintUint64 inner.length ++ inner).length < 2 ^ 63) (fuel : Nat)
    (rest : List UInt8) :
    datumDeserialize (fuel + 1) (serializeDatumType type ++ (serializeVarintUint64 inner.length ++ inner) ++ rest) =
      .ok (if type = .bufRArray then .bufRArray (serializeVarintUint64 inner.length ++ inner)
        else .bufRObject (serializeVarintUint64 inner.length ++ inner), rest) := by
  rw [List.length_append, length_serializeVarintUint64] at fits
  have inRange : ¬(inner.length > 2 ^ 64 - 1 - varintUint64SerializedSize inner.length ∨
      inner.length > 2 ^ 63 - 1 - varintUint64SerializedSize inner.length) := by omega
  rcases kind with rfl | rfl <;>
  · simp only [List.append_assoc, datumDeserialize, deserializeDatumType_serializeDatumType, serializeVarintUint64,
      deserializeVarintUint64_serialize (show inner.length < 2 ^ 64 by omega), if_neg inRange, forceRead,
      List.take_left', List.drop_left', Nat.lt_irrefl, if_false]

/-- A valid value shorter than `2 ^ 63` bytes reads back from a stream, with what follows it
left in the stream: its scalars as they are, a string, binary, array or object as a reference
to a buffer of its own. -/
theorem datumDeserialize_encode {d : Datum} (valid : d.valid = true) (fits : d.encode.length < 2 ^ 63)
    (fuel : Nat) (rest : List UInt8) :
    datumDeserialize (fuel + 1) (d.encode ++ rest) = .ok (d.storedOf [], rest) := by
  cases d with
  | minval | maxval | null =>
    simp only [Datum.encode, datumDeserialize, deserializeDatumType_serializeDatumType]
    rfl
  | bool b =>
    simp only [Datum.encode, List.append_assoc, datumDeserialize, deserializeDatumType_serializeDatumType,
      deserializeBool_serializeBool]
    rfl
  | num x => exact datumDeserialize_numberBytes (by simpa [Datum.valid] using valid) fuel rest
  | str s =>
    have small : s.length < 2 ^ 64 := by
      have := Datum.length_lt_length_encode_str s
      omega
    have noNul : s.contains 0 = false := by simpa [Datum.valid] using valid
    simp only [Datum.encode, List.append_assoc, datumDeserialize, deserializeDatumType_serializeDatumType,
      datumStringDeserialize_stringBytes small, DatumT.ofStr, DatumString.data_stringBytes small, noNul,
      Option.bind_eq_bind, Option.bind_some, Bool.false_eq_true, if_false]
    rfl
  | binary s =>
    have small : s.length < 2 ^ 64 := by
      have := Datum.length_lt_length_encode_binary s
      omega
    simp only [Datum.encode, List.append_assoc, datumDeserialize, deserializeDatumType_serializeDatumType,
      datumStringDeserialize_stringBytes small]
    rfl
  | array ds =>
    have inner := Datum.length_encode_array ds
    rw [containerBytes] at inner
    rw [Datum.encode, Datum.encodeList_eq_map, containerBytes, datumDeserialize_buf (.inl rfl) (by omega)]
    simp [Datum.storedOf, containerBytes]
  | object ps =>
    have inner := Datum.length_encode_object ps
    rw [containerBytes] at inner
    rw [Datum.encode, Datum.encodePairs_eq_map, containerBytes, datumDeserialize_buf (.inr rfl) (by omega)]
    simp [Datum.storedOf, containerBytes]

/-! ## Reading through a buffer -/

/-- Where element `i` of an array or object starts in its data: after the inner size, the
element count and the offset table, past the elements before it. -/
def elementOffset (parts : List (List UInt8)) (i : Nat) : Nat :=
  varintUint64SerializedSize (containerInner parts).length + varintUint64SerializedSize parts.length +
    (parts.length - 1) * (containerOffsetSize parts.length (parts.map List.length).sum).width +
    Layout.start (parts.map List.length) i

theorem DatumOffsetSize.max_add_one (offsetSize : DatumOffsetSize) :
    offsetSize.max + 1 = 256 ^ offsetSize.width := by
  cases offsetSize <;> rfl

section Buffers

variable {parts : List (List UInt8)} {tail : List UInt8}

/-- The data of an array or object with what follows it in the buffer, field by field. -/
theorem containerBytes_append (parts : List (List UInt8)) (tail : List UInt8) :
    containerBytes parts ++ tail =
      serializeVarintUint64 (containerInner parts).length ++ (serializeVarintUint64 parts.length ++
        ((Layout.tableEntries (parts.map List.length)).flatMap
            (serializeUniversal (containerOffsetSize parts.length (parts.map List.length).sum).width) ++
          (parts.flatten ++ tail))) := by
  simp [containerBytes, containerInner]

theorem length_table (parts : List (List UInt8)) (width : Nat) :
    ((Layout.tableEntries (parts.map List.length)).flatMap (serializeUniversal width)).length =
      (parts.length - 1) * width := by
  rw [Layout.length_flatMap_of_width (serializeUniversal width) (fun n => LittleEndian.length_toBytes width n),
    Layout.length_tableEntries,
    List.length_map]

/-- `datum_get_array_size` reads the element count. -/
theorem datumGetArraySize_containerBytes (fits : (containerBytes parts).length < 2 ^ 64)
    (count : parts.length < 2 ^ 64) :
    datumGetArraySize (containerBytes parts ++ tail) = some parts.length := by
  have inner : (containerInner parts).length < 2 ^ 64 := by
    rw [length_containerBytes] at fits
    omega
  simp only [datumGetArraySize, containerBytes_append, serializeVarintUint64, deserializeVarintUint64_serialize inner,
    deserializeVarintUint64_serialize count, Except.toOption, Option.bind_eq_bind, Option.bind_some]

/-- Past the inner size and the element count come the table and the elements. -/
theorem drop_header (parts : List (List UInt8)) (tail : List UInt8) (k : Nat) :
    (containerBytes parts ++ tail).drop
        (varintUint64SerializedSize (containerInner parts).length + varintUint64SerializedSize parts.length + k) =
      ((Layout.tableEntries (parts.map List.length)).flatMap
          (serializeUniversal (containerOffsetSize parts.length (parts.map List.length).sum).width) ++
        (parts.flatten ++ tail)).drop k := by
  rw [containerBytes_append, Nat.add_assoc, ← length_serializeVarintUint64, Layout.drop_length_add_append,
    ← length_serializeVarintUint64, Layout.drop_length_add_append]

/-- The reader finds the writer's width for an array or object of several elements. -/
theorem getOffsetSizeFromInnerSize_containerInner (fits : (containerBytes parts).length < 2 ^ 64)
    (many : 1 < parts.length) :
    getOffsetSizeFromInnerSize (containerInner parts).length =
      containerOffsetSize parts.length (parts.map List.length).sum := by
  rw [length_containerBytes] at fits
  have inner := length_containerInner_eq parts
  rw [inner] at fits ⊢
  exact getOffsetSizeFromInnerSize_eq many (by omega)

/-- Every entry of the table fits the writer's width. -/
theorem start_lt_width (fits : (containerBytes parts).length < 2 ^ 64) {j : Nat} (lt : j + 1 < parts.length) :
    Layout.start (parts.map List.length) (j + 1) <
      256 ^ (containerOffsetSize parts.length (parts.map List.length).sum).width := by
  have member : Layout.start (parts.map List.length) (j + 1) ∈ Layout.tableEntries (parts.map List.length) := by
    simp only [Layout.tableEntries, List.mem_map, List.mem_range, List.length_map]
    exact ⟨j, by omega, rfl⟩
  have sum := sum_le_length_containerBytes parts
  have bound := sum_dropLast_le_max (show (parts.map List.length).sum < 2 ^ 64 by omega)
  have widest := DatumOffsetSize.max_add_one (containerOffsetSize parts.length (parts.map List.length).sum)
  rw [List.length_map] at bound
  have := Layout.le_of_mem_tableEntries member
  omega

/-- `datum_get_element_offset` finds where each element starts: the first right after the
offset table, each other one where its entry of the table says. -/
theorem datumGetElementOffset_containerBytes (fits : (containerBytes parts).length < 2 ^ 64)
    (count : parts.length < 2 ^ 64) {i : Nat} (lt : i < parts.length) :
    datumGetElementOffset (containerBytes parts ++ tail) i = some (elementOffset parts i) := by
  have inner : (containerInner parts).length < 2 ^ 64 := by
    rw [length_containerBytes] at fits
    omega
  have first := deserializeVarintUint64_serializeVarintUint64 inner (serializeVarintUint64 parts.length ++
    ((Layout.tableEntries (parts.map List.length)).flatMap
      (serializeUniversal (containerOffsetSize parts.length (parts.map List.length).sum).width) ++
        (parts.flatten ++ tail)))
  rw [← containerBytes_append] at first
  have tell : (containerBytes parts ++ tail).length - ((Layout.tableEntries (parts.map List.length)).flatMap
        (serializeUniversal (containerOffsetSize parts.length (parts.map List.length).sum).width) ++
        (parts.flatten ++ tail)).length =
      varintUint64SerializedSize (containerInner parts).length + varintUint64SerializedSize parts.length := by
    rw [containerBytes_append]
    simp only [List.length_append, length_serializeVarintUint64]
    omega
  unfold datumGetElementOffset
  simp only [first, deserializeVarintUint64_serializeVarintUint64 count, Except.toOption, Option.bind_eq_bind,
    Option.bind_some, if_pos lt, tell]
  cases i with
  | zero =>
    -- The first element starts right after the table, at whatever width the table has.
    rcases Nat.lt_or_ge 1 parts.length with many | single
    · simp [getOffsetSizeFromInnerSize_containerInner fits many, elementOffset]
    · have none : parts.length - 1 = 0 := by omega
      simp [none, elementOffset]
  | succ j =>
    have many : 1 < parts.length := by omega
    have table := length_table parts (containerOffsetSize parts.length (parts.map List.length).sum).width
    have within : j * (containerOffsetSize parts.length (parts.map List.length).sum).width ≤
        ((Layout.tableEntries (parts.map List.length)).flatMap
          (serializeUniversal (containerOffsetSize parts.length (parts.map List.length).sum).width)).length := by
      rw [table]
      exact Nat.mul_le_mul_right _ (by omega)
    have bounded : varintUint64SerializedSize (containerInner parts).length + varintUint64SerializedSize parts.length +
        j * (containerOffsetSize parts.length (parts.map List.length).sum).width ≤ (containerBytes parts ++ tail).length := by
      rw [containerBytes_append]
      simp only [List.length_append, length_serializeVarintUint64] at within ⊢
      omega
    rw [getOffsetSizeFromInnerSize_containerInner fits many, if_neg (Nat.succ_ne_zero j), Nat.add_sub_cancel,
      if_pos bounded, drop_header, List.drop_append_of_le_length within,
      Layout.drop_flatMap_of_width (serializeUniversal _) (fun n => LittleEndian.length_toBytes _ n),
      Layout.drop_tableEntries (by simpa using (show j < parts.length - 1 by omega)), List.flatMap_cons, List.append_assoc,
      deserializeUniversal_serializeUniversal (start_lt_width fits (by omega))]
    simp [elementOffset]

/-- Past element `i` come its serialization and those of the elements after it. -/
theorem drop_elementOffset (parts : List (List UInt8)) (tail : List UInt8) (i : Nat) :
    (containerBytes parts ++ tail).drop (elementOffset parts i) = (parts.drop i).flatten ++ tail := by
  have table := length_table parts (containerOffsetSize parts.length (parts.map List.length).sum).width
  have before : Layout.start (parts.map List.length) i ≤ parts.flatten.length := by
    rw [List.length_flatten]
    exact Layout.start_le_sum _ i
  rw [elementOffset, Nat.add_assoc, drop_header, ← table, Layout.drop_length_add_append,
    List.drop_append_of_le_length before, Layout.drop_flatten_start]

end Buffers

section FromBuf

variable {buf payload : List UInt8} {atOffset : Nat}

/-- `datum_deserialize_from_buf` on a buffer that holds a type byte at `atOffset`: a reference
to what follows the type byte for a string, array, object or binary, and otherwise the datum
read from a stream over the buffer from `atOffset`. -/
theorem datumDeserializeFromBuf_typed (fuel : Nat) {type : DatumSerializedType}
    (located : buf.drop atOffset = serializeDatumType type ++ payload) :
    datumDeserializeFromBuf fuel buf atOffset =
      match type with
      | .rStr => DatumT.ofStr ⟨payload⟩
      | .bufRArray => some (.bufRArray payload)
      | .bufRObject => some (.bufRObject payload)
      | .rBinary => some (.rBinary ⟨payload⟩)
      | _ => (datumDeserialize fuel (serializeDatumType type ++ payload)).toOption.map Prod.fst := by
  have typeByte : (serializeDatumType type).length = 1 := rfl
  have inside : atOffset + 1 ≤ buf.length := by
    have := congrArg List.length located
    simp only [List.length_drop, List.length_append, typeByte] at this
    omega
  have child : makeChild buf (atOffset + 1) = some payload := by
    rw [makeChild, if_pos inside, ← List.drop_drop, located]
    rfl
  have one : (serializeDatumType type ++ payload).length - payload.length = 1 := by
    rw [List.length_append, typeByte]
    omega
  unfold datumDeserializeFromBuf
  rw [if_pos (by omega)]
  simp only [located, deserializeDatumType_serializeDatumType, Except.toOption, Option.bind_eq_bind, Option.bind_some,
    one, child]
  cases type <;> rfl

/-- `datum_deserialize_from_buf` on a valid value's serialization in a buffer gives the value
as stored there. -/
theorem datumDeserializeFromBuf_encode {d : Datum} (valid : d.valid = true) (fits : d.encode.length < 2 ^ 63)
    {tail : List UInt8} (located : buf.drop atOffset = d.encode ++ tail) (fuel : Nat) :
    datumDeserializeFromBuf (fuel + 1) buf atOffset = some (d.storedOf tail) := by
  have stream := datumDeserialize_encode valid fits fuel tail
  cases d with
  | minval | maxval | null =>
    rw [Datum.encode] at located stream
    rw [datumDeserializeFromBuf_typed (fuel + 1) located]
    simp [stream, Except.toOption, Datum.storedOf]
  | bool b =>
    rw [Datum.encode, List.append_assoc] at located stream
    rw [datumDeserializeFromBuf_typed (fuel + 1) located]
    simp [stream, Except.toOption, Datum.storedOf]
  | num x =>
    rw [Datum.encode] at located stream
    -- Each of the three ways to write a number is read from a stream.
    cases integer : numberAsInteger x with
    | none =>
      simp only [numberBytes, integer, List.append_assoc] at located stream
      rw [datumDeserializeFromBuf_typed (fuel + 1) located]
      simp [stream, Except.toOption, Datum.storedOf]
    | some i =>
      cases sign : x.signBit <;>
      · simp only [numberBytes, integer, sign, if_true, Bool.false_eq_true, if_false, List.append_assoc]
          at located stream
        rw [datumDeserializeFromBuf_typed (fuel + 1) located]
        simp [stream, Except.toOption, Datum.storedOf]
  | str s =>
    have small : s.length < 2 ^ 64 := by
      have := Datum.length_lt_length_encode_str s
      omega
    have noNul : 0 ∉ s := by simpa [Datum.valid] using valid
    rw [Datum.encode, List.append_assoc] at located
    rw [datumDeserializeFromBuf_typed (fuel + 1) located]
    simp [DatumT.ofStr, DatumString.data_stringBytes small, noNul, Datum.storedOf]
  | binary s =>
    rw [Datum.encode, List.append_assoc] at located
    rw [datumDeserializeFromBuf_typed (fuel + 1) located]
    rfl
  | array ds =>
    rw [Datum.encode, List.append_assoc] at located
    rw [datumDeserializeFromBuf_typed (fuel + 1) located]
    rfl
  | object ps =>
    rw [Datum.encode, List.append_assoc] at located
    rw [datumDeserializeFromBuf_typed (fuel + 1) located]
    rfl

end FromBuf

/-! ## Arrays and objects in a buffer -/

theorem Datum.length_encode_pos (d : Datum) : 0 < d.encode.length := by
  cases d <;> simp [Datum.encode, serializeDatumType, serializeRangedInt8]
  case num x =>
    unfold numberBytes
    split
    · split <;> simp [serializeDatumType, serializeRangedInt8]
    · simp [serializeDatumType, serializeRangedInt8]

/-- The elements `get` reads out of an array's serialization with `tail` after it in the
buffer: each element as stored there, followed by the elements after it and `tail`. -/
def storedElements (tail : List UInt8) : List Datum → List DatumT
  | [] => []
  | d :: ds => d.storedOf ((ds.map Datum.encode).flatten ++ tail) :: storedElements tail ds

/-- The pairs `get_pair` reads out of an object's serialization with `tail` after it: each key a
reference to its serialization and all that follows it, each value as stored there. -/
def storedPairs (tail : List UInt8) : List (List UInt8 × Datum) → List (DatumString × DatumT)
  | [] => []
  | (key, value) :: ps =>
    (⟨stringBytes key ++ (value.encode ++ ((ps.map fun q => stringBytes q.1 ++ q.2.encode).flatten ++ tail))⟩,
      value.storedOf ((ps.map fun q => stringBytes q.1 ++ q.2.encode).flatten ++ tail)) :: storedPairs tail ps

@[simp] theorem length_storedElements (tail : List UInt8) (ds : List Datum) :
    (storedElements tail ds).length = ds.length := by
  induction ds with
  | nil => rfl
  | cons d ds ih => simp [storedElements, ih]

@[simp] theorem length_storedPairs (tail : List UInt8) (ps : List (List UInt8 × Datum)) :
    (storedPairs tail ps).length = ps.length := by
  induction ps with
  | nil => rfl
  | cons p ps ih => simp [storedPairs, ih]

theorem get_storedElements (tail : List UInt8) :
    ∀ (ds : List Datum) (i : Nat) (lt : i < (storedElements tail ds).length),
      (storedElements tail ds).get ⟨i, lt⟩ =
        (ds.get ⟨i, by simpa using lt⟩).storedOf ((((ds.drop (i + 1)).map Datum.encode).flatten) ++ tail)
  | d :: ds, 0, _ => rfl
  | d :: ds, i + 1, lt => get_storedElements tail ds i (by simpa [storedElements] using lt)

theorem get_storedPairs (tail : List UInt8) :
    ∀ (ps : List (List UInt8 × Datum)) (i : Nat) (lt : i < (storedPairs tail ps).length),
      let p := ps.get ⟨i, by simpa using lt⟩
      let rest := ((ps.drop (i + 1)).map fun q => stringBytes q.1 ++ q.2.encode).flatten ++ tail
      (storedPairs tail ps).get ⟨i, lt⟩ = (⟨stringBytes p.1 ++ (p.2.encode ++ rest)⟩, p.2.storedOf rest)
  | (key, value) :: ps, 0, _ => rfl
  | p :: ps, i + 1, lt => get_storedPairs tail ps i (by simpa [storedPairs] using lt)

/-- At most one part per byte, when no part is empty. -/
theorem length_le_sum_length {parts : List (List UInt8)} (nonempty : ∀ part ∈ parts, 0 < part.length) :
    parts.length ≤ (parts.map List.length).sum := by
  have := List.length_le_sum_of_one_le (parts.map List.length)
    (by simpa using fun part (member : part ∈ parts) => Nat.succ_le_of_lt (nonempty part member))
  simpa using this

section Stored

variable {tail : List UInt8}

/-- The inner size and the element count of an array shorter than `2 ^ 63` bytes fit their
varints. -/
theorem array_bounds {ds : List Datum} (fits : (Datum.array ds).encode.length < 2 ^ 63) :
    (containerBytes (ds.map Datum.encode)).length < 2 ^ 64 ∧ (ds.map Datum.encode).length < 2 ^ 64 := by
  have inside := sum_le_length_containerBytes (ds.map Datum.encode)
  have count := @length_le_sum_length (ds.map Datum.encode) (by simp [Datum.length_encode_pos])
  rw [Datum.length_encode_array] at fits
  omega

theorem object_bounds {ps : List (List UInt8 × Datum)} (fits : (Datum.object ps).encode.length < 2 ^ 63) :
    (containerBytes (ps.map fun q => stringBytes q.1 ++ q.2.encode)).length < 2 ^ 64 ∧
      (ps.map fun q => stringBytes q.1 ++ q.2.encode).length < 2 ^ 64 := by
  have inside := sum_le_length_containerBytes (ps.map fun q => stringBytes q.1 ++ q.2.encode)
  have count := @length_le_sum_length (ps.map fun q => stringBytes q.1 ++ q.2.encode) fun part member => by
    obtain ⟨q, _, rfl⟩ := List.mem_map.mp member
    have := Datum.length_encode_pos q.2
    simp only [List.length_append]
    omega
  rw [Datum.length_encode_object] at fits
  omega

/-- `get(i)` on an array read from a buffer reads element `i` where the offset table says it
is, as stored there. -/
theorem get_bufRArray {ds : List Datum} (valid : ∀ d ∈ ds, d.valid = true)
    (fits : (Datum.array ds).encode.length < 2 ^ 63) (fuel : Nat) {i : Nat} (lt : i < ds.length) :
    (DatumT.bufRArray (containerBytes (ds.map Datum.encode) ++ tail)).get (fuel + 1) i =
      some ((storedElements tail ds).get ⟨i, by simpa using lt⟩) := by
  obtain ⟨container, count⟩ := array_bounds fits
  have member : ds.get ⟨i, lt⟩ ∈ ds := List.get_mem ds ⟨i, lt⟩
  have located : (containerBytes (ds.map Datum.encode) ++ tail).drop (elementOffset (ds.map Datum.encode) i) =
      (ds.get ⟨i, lt⟩).encode ++ (((ds.drop (i + 1)).map Datum.encode).flatten ++ tail) := by
    rw [drop_elementOffset, List.drop_eq_getElem_cons (show i < (ds.map Datum.encode).length by simpa using lt)]
    simp [List.map_drop]
  simp only [DatumT.get, DatumT.arrSize, datumGetArraySize_containerBytes container count, List.length_map,
    Option.bind_eq_bind, Option.bind_some, if_pos lt, DatumT.uncheckedGet,
    datumGetElementOffset_containerBytes container count (by simpa using lt),
    datumDeserializeFromBuf_encode (valid _ member)
      (Nat.lt_trans (Datum.length_lt_of_mem_array member) fits) located fuel,
    get_storedElements]

/-- `get_pair(i)` on an object read from a buffer reads pair `i` where the offset table says it
is: its key as a reference into the buffer, and its value after the key, as stored there. -/
theorem getPair_bufRObject {ps : List (List UInt8 × Datum)} (valid : ∀ p ∈ ps, p.2.valid = true)
    (fits : (Datum.object ps).encode.length < 2 ^ 63) (fuel : Nat) {i : Nat} (lt : i < ps.length) :
    (DatumT.bufRObject (containerBytes (ps.map fun q => stringBytes q.1 ++ q.2.encode) ++ tail)).getPair (fuel + 1) i =
      some ((storedPairs tail ps).get ⟨i, by simpa using lt⟩) := by
  obtain ⟨container, count⟩ := object_bounds fits
  have member : ps.get ⟨i, lt⟩ ∈ ps := List.get_mem ps ⟨i, lt⟩
  have shorter := Datum.length_lt_of_mem_object member
  simp only [List.length_append, length_stringBytes] at shorter
  have located : (containerBytes (ps.map fun q => stringBytes q.1 ++ q.2.encode) ++ tail).drop
        (elementOffset (ps.map fun q => stringBytes q.1 ++ q.2.encode) i) =
      stringBytes (ps.get ⟨i, lt⟩).1 ++ ((ps.get ⟨i, lt⟩).2.encode ++
        (((ps.drop (i + 1)).map fun q => stringBytes q.1 ++ q.2.encode).flatten ++ tail)) := by
    rw [drop_elementOffset, List.drop_eq_getElem_cons (show i < (ps.map fun q => stringBytes q.1 ++ q.2.encode).length by simpa using lt)]
    simp [List.map_drop]
  have inside : elementOffset (ps.map fun q => stringBytes q.1 ++ q.2.encode) i ≤
      (containerBytes (ps.map fun q => stringBytes q.1 ++ q.2.encode) ++ tail).length := by
    have lengths := congrArg List.length located
    have := Datum.length_encode_pos (ps.get ⟨i, lt⟩).2
    simp only [List.length_drop, List.length_append] at lengths ⊢
    omega
  -- The value follows its key.
  have valueLocated : (containerBytes (ps.map fun q => stringBytes q.1 ++ q.2.encode) ++ tail).drop
        (elementOffset (ps.map fun q => stringBytes q.1 ++ q.2.encode) i + (stringBytes (ps.get ⟨i, lt⟩).1).length) =
      (ps.get ⟨i, lt⟩).2.encode ++ (((ps.drop (i + 1)).map fun q => stringBytes q.1 ++ q.2.encode).flatten ++ tail) := by
    rw [← List.drop_drop, located, List.drop_left]
  simp only [DatumT.getPair, DatumT.objSize, datumGetArraySize_containerBytes container count, List.length_map,
    Option.bind_eq_bind, Option.bind_some, if_pos lt, DatumT.uncheckedGetPair,
    datumGetElementOffset_containerBytes container count (by simpa using lt), datumDeserializePairFromBuf, makeChild,
    if_pos inside, located, datumStringSerializedSize_stringBytes (show (ps.get ⟨i, lt⟩).1.length < 2 ^ 64 by omega),
    datumDeserializeFromBuf_encode (valid _ member) (by omega) valueLocated fuel, get_storedPairs]

/-- The elements of an array read from a buffer, as `get` reads them one by one. -/
theorem elements_bufRArray {ds : List Datum} (valid : ∀ d ∈ ds, d.valid = true)
    (fits : (Datum.array ds).encode.length < 2 ^ 63) (fuel : Nat) :
    (DatumT.bufRArray (containerBytes (ds.map Datum.encode) ++ tail)).elements (fuel + 1) =
      some (storedElements tail ds) := by
  obtain ⟨container, count⟩ := array_bounds fits
  have each := Layout.mapM_range_eq_some _ (storedElements tail ds)
    fun i lt => get_bufRArray valid fits fuel (by simpa using lt)
  simp only [length_storedElements] at each
  simp only [DatumT.elements, DatumT.arrSize, datumGetArraySize_containerBytes container count, List.length_map,
    Option.bind_eq_bind, Option.bind_some, each]

/-- The pairs of an object read from a buffer, as `get_pair` reads them one by one. -/
theorem pairs_bufRObject {ps : List (List UInt8 × Datum)} (valid : ∀ p ∈ ps, p.2.valid = true)
    (fits : (Datum.object ps).encode.length < 2 ^ 63) (fuel : Nat) :
    (DatumT.bufRObject (containerBytes (ps.map fun q => stringBytes q.1 ++ q.2.encode) ++ tail)).pairs (fuel + 1) =
      some (storedPairs tail ps) := by
  obtain ⟨container, count⟩ := object_bounds fits
  have each := Layout.mapM_range_eq_some _ (storedPairs tail ps)
    fun i lt => getPair_bufRObject valid fits fuel (by simpa using lt)
  simp only [length_storedPairs] at each
  simp only [DatumT.pairs, DatumT.objSize, datumGetArraySize_containerBytes container count, List.length_map,
    Option.bind_eq_bind, Option.bind_some, each]

/-- A relation that holds between every value and the datum it is stored as holds between the
elements read and the elements. -/
theorem forall₂_storedElements {related : DatumT → Datum → Prop} {ds : List Datum}
    (each : ∀ d ∈ ds, ∀ tail, related (d.storedOf tail) d) : List.Forall₂ related (storedElements tail ds) ds := by
  induction ds with
  | nil => exact .nil
  | cons d ds ih => exact .cons (each d List.mem_cons_self _) (ih fun d' member => each d' (List.mem_cons_of_mem d member))

theorem forall₂_storedPairs {related : DatumString × DatumT → List UInt8 × Datum → Prop}
    {ps : List (List UInt8 × Datum)}
    (each : ∀ p ∈ ps, ∀ after tail, related (⟨stringBytes p.1 ++ after⟩, p.2.storedOf tail) p) :
    List.Forall₂ related (storedPairs tail ps) ps := by
  induction ps with
  | nil => exact .nil
  | cons p ps ih =>
    exact .cons (each p List.mem_cons_self _ _) (ih fun p' member => each p' (List.mem_cons_of_mem p member))

/-! ### What the program sees of a stored value -/

/-- A valid value stored in a buffer is seen as the value: its strings through `data()`, its
elements and pairs through `get` and `get_pair`, given fuel beyond its depth. -/
theorem observe_storedOf :
    ∀ (d : Datum), d.valid = true → d.encode.length < 2 ^ 63 → ∀ (fuel : Nat), d.depth ≤ fuel →
      ∀ tail, (d.storedOf tail).observe (fuel + 2) = some d := by
  intro d
  induction d using Datum.induction with
  | minval | maxval | null => exact fun _ _ _ _ _ => rfl
  | bool b => exact fun _ _ _ _ _ => rfl
  | num x => exact fun _ _ _ _ _ => rfl
  | str s =>
    intro _ fits _ _ tail
    have small : s.length < 2 ^ 64 := by
      have := Datum.length_lt_length_encode_str s
      omega
    simp [Datum.storedOf, DatumT.observe, DatumString.data_stringBytes small]
  | binary s =>
    intro _ fits _ _ tail
    have small : s.length < 2 ^ 64 := by
      have := Datum.length_lt_length_encode_binary s
      omega
    simp [Datum.storedOf, DatumT.observe, DatumString.data_stringBytes small]
  | array ds ih =>
    intro valid fits fuel deep tail
    obtain ⟨fuel, rfl⟩ : ∃ inner, fuel = inner + 1 := ⟨fuel - 1, by simp [Datum.depth] at deep; omega⟩
    have validEach : ∀ d ∈ ds, d.valid = true := by simpa [Datum.valid, Datum.validList_iff] using valid
    -- Each element is read as stored, and seen as the element.
    have seen : List.Forall₂ (fun e d => e.observe (fuel + 2) = some d) (storedElements tail ds) ds :=
      forall₂_storedElements fun d member tail' =>
        ih d member (validEach d member) (Nat.lt_trans (Datum.length_lt_of_mem_array member) fits) fuel
          (by have := Datum.depth_lt_of_mem_array member; omega) tail'
    rw [Datum.storedOf, Datum.encodeList_eq_map, DatumT.observe, elements_bufRArray validEach fits,
      Option.bind_eq_bind, Option.bind_some, Layout.mapM_of_forall₂ (g := id) (by simpa using seen)]
    simp
  | object ps ih =>
    intro valid fits fuel deep tail
    obtain ⟨fuel, rfl⟩ : ∃ inner, fuel = inner + 1 := ⟨fuel - 1, by simp [Datum.depth] at deep; omega⟩
    have validEach : ∀ p ∈ ps, p.2.valid = true := by simpa [Datum.valid, Datum.validPairs_iff] using valid
    have seen : List.Forall₂ (fun e q => (do some ((← e.1.data), (← e.2.observe (fuel + 2)))) = some q)
        (storedPairs tail ps) ps :=
      forall₂_storedPairs fun p member after tail' => by
        have shorter := Datum.length_lt_of_mem_object member
        simp only [List.length_append, length_stringBytes] at shorter
        have value := ih p member (validEach p member) (by omega) fuel
          (by have := Datum.depth_lt_of_mem_object member; omega) tail'
        simp [DatumString.data_stringBytes (show p.1.length < 2 ^ 64 by omega), value]
    rw [Datum.storedOf, Datum.encodePairs_eq_map, DatumT.observe, pairs_bufRObject validEach fits,
      Option.bind_eq_bind, Option.bind_some,
      Layout.mapM_of_forall₂ (g := id) (show List.Forall₂ _ (storedPairs tail ps) ps from ?_)]
    · simp
    · refine List.Forall₂.imp ?_ seen
      rintro ⟨key, value⟩ q read
      exact read

/-! ### Writing a stored value again -/

/-- The checked writer on a valid value read from a buffer computes the value's sizes, writes
its serialization and raises its flags, reading every element through the offset table. -/
theorem writes_storedOf :
    ∀ (d : Datum), d.valid = true → d.encode.length < 2 ^ 63 → ∀ (fuel : Nat), d.depth ≤ fuel →
      ∀ tail, Writes (fuel + 1) .yes (d.storedOf tail) d := by
  intro d
  induction d using Datum.induction with
  | minval | maxval | null => exact fun _ _ _ _ _ => ⟨rfl, rfl⟩
  | bool b => exact fun _ _ _ _ _ => ⟨rfl, rfl⟩
  | num x => exact fun _ _ _ _ _ => writes_num x
  | str s =>
    intro _ fits _ _ tail
    exact writes_str (by have := Datum.length_lt_length_encode_str s; omega)
  | binary s =>
    intro _ fits _ _ tail
    exact writes_binary (by have := Datum.length_lt_length_encode_binary s; omega)
  | array ds ih =>
    intro valid fits fuel deep tail
    obtain ⟨fuel, rfl⟩ : ∃ inner, fuel = inner + 1 := ⟨fuel - 1, by simp [Datum.depth] at deep; omega⟩
    have validEach : ∀ d ∈ ds, d.valid = true := by simpa [Datum.valid, Datum.validList_iff] using valid
    rw [Datum.storedOf, Datum.encodeList_eq_map]
    refine writes_array (.inr rfl) (elements_bufRArray validEach fits fuel)
      (forall₂_storedElements fun d member tail' => ?_) (by omega)
    exact ih d member (validEach d member) (Nat.lt_trans (Datum.length_lt_of_mem_array member) fits) fuel
      (by have := Datum.depth_lt_of_mem_array member; omega) tail'
  | object ps ih =>
    intro valid fits fuel deep tail
    obtain ⟨fuel, rfl⟩ : ∃ inner, fuel = inner + 1 := ⟨fuel - 1, by simp [Datum.depth] at deep; omega⟩
    have validEach : ∀ p ∈ ps, p.2.valid = true := by simpa [Datum.valid, Datum.validPairs_iff] using valid
    rw [Datum.storedOf, Datum.encodePairs_eq_map]
    refine writes_object (.inr rfl) (pairs_bufRObject validEach fits fuel)
      (forall₂_storedPairs fun p member after tail' => ⟨⟨after, rfl⟩, ?_⟩) (by omega)
    have shorter := Datum.length_lt_of_mem_object member
    simp only [List.length_append] at shorter
    exact ih p member (validEach p member) (by omega) fuel
      (by have := Datum.depth_lt_of_mem_object member; omega) tail'

/-- The varint at the front of an array's or object's data reads as its inner size. -/
theorem readInnerSerializedSizeFromBuf_containerBytes {parts : List (List UInt8)}
    (fits : (containerBytes parts).length < 2 ^ 64) :
    readInnerSerializedSizeFromBuf (containerBytes parts ++ tail) = some (containerInner parts).length := by
  have inner : (containerInner parts).length < 2 ^ 64 := by
    rw [length_containerBytes] at fits
    omega
  simp [readInnerSerializedSizeFromBuf, containerBytes, deserializeVarintUint64_serializeVarintUint64 inner,
    Except.toOption]

/-- The copy is the inner size's varint and the inner bytes: the size the writer computed,
less the type byte. -/
theorem sub_one_size_containerBytes (parts : List (List UInt8)) :
    1 + ((containerInner parts).length + varintUint64SerializedSize (containerInner parts).length) - 1 =
      (containerBytes parts).length := by
  rw [length_containerBytes]
  omega

/-- Unless errors are checked, an array read from a buffer is written by copying its
serialization: the bytes are the value's, the one flag raised is that of its own element
count, and nothing inside it is looked at. -/
theorem datumSerializeChecked_no_array {ds : List Datum} (fits : (Datum.array ds).encode.length < 2 ^ 63)
    (fuel : Nat) :
    datumSerializeChecked (fuel + 1) .no ((Datum.array ds).storedOf tail) =
      some ((Datum.array ds).encode, ⟨ds.length > 100000, false⟩) := by
  obtain ⟨container, count⟩ := array_bounds fits
  have counted : (DatumT.bufRArray (containerBytes (ds.map Datum.encode) ++ tail)).arrSize = some ds.length := by
    simp [DatumT.arrSize, datumGetArraySize_containerBytes container count]
  rw [Datum.storedOf, Datum.encodeList_eq_map, datumSerializeChecked, datumSerializedSize_of_arrSize counted]
  simp only [datumArraySerializedSize, DatumT.getBufRef, readInnerSerializedSizeFromBuf_containerBytes container,
    Option.bind_eq_bind, Option.bind_some]
  rw [datumSerialize_of_arrSize counted]
  simp only [datumArraySerialize, DatumT.getBufRef, sub_one_size_containerBytes, List.length_append, Nat.le_add_right, if_true,
    List.take_left', Option.bind_some, SerializationResult.or_success, Datum.encode, Datum.encodeList_eq_map]

/-- Unless errors are checked, an object read from a buffer is written by copying its
serialization, and no flag is raised. -/
theorem datumSerializeChecked_no_object {ps : List (List UInt8 × Datum)}
    (fits : (Datum.object ps).encode.length < 2 ^ 63) (fuel : Nat) :
    datumSerializeChecked (fuel + 1) .no ((Datum.object ps).storedOf tail) =
      some ((Datum.object ps).encode, .success) := by
  obtain ⟨container, count⟩ := object_bounds fits
  have counted : (DatumT.bufRObject (containerBytes (ps.map fun q => stringBytes q.1 ++ q.2.encode) ++ tail)).objSize =
      some ps.length := by
    simp [DatumT.objSize, datumGetArraySize_containerBytes container count]
  rw [Datum.storedOf, Datum.encodePairs_eq_map, datumSerializeChecked, datumSerializedSize_of_objSize counted]
  simp only [datumArraySerializedSize, DatumT.getBufRef, readInnerSerializedSizeFromBuf_containerBytes container,
    Option.bind_eq_bind, Option.bind_some]
  rw [datumSerialize_of_objSize counted]
  simp only [datumArraySerialize, DatumT.getBufRef, sub_one_size_containerBytes, List.length_append, Nat.le_add_right, if_true,
    List.take_left', Option.bind_some, Datum.encode, Datum.encodePairs_eq_map]

/-- What the writer does is what `datum_serialize` does after sizing. -/
theorem Writes.serializeChecked {fuel : Nat} {checkErrors : CheckDatumSerializationErrors} {datum : DatumT}
    {d : Datum} (writes : Writes fuel checkErrors datum d) :
    datumSerializeChecked fuel checkErrors datum = some (d.encode, d.serializationResult) := by
  rw [datumSerializeChecked, writes.1, Option.bind_eq_bind, Option.bind_some, writes.2]

/-- Unchecked, a value read from a buffer is written as the bytes it was read from. -/
theorem serializeChecked_no_storedOf {d : Datum} (fits : d.encode.length < 2 ^ 63) (fuel : Nat) :
    (datumSerializeChecked (fuel + 1) .no (d.storedOf tail)).map Prod.fst = some d.encode := by
  cases d with
  | minval | maxval | null => rfl
  | bool b => rfl
  | num x => simp [(@writes_num fuel .no x).serializeChecked, Datum.storedOf]
  | str s =>
    have small : s.length < 2 ^ 64 := by
      have := Datum.length_lt_length_encode_str s
      omega
    simp [(@writes_str fuel .no s tail small).serializeChecked, Datum.storedOf]
  | binary s =>
    have small : s.length < 2 ^ 64 := by
      have := Datum.length_lt_length_encode_binary s
      omega
    simp [(@writes_binary fuel .no s tail small).serializeChecked, Datum.storedOf]
  | array ds => simp [datumSerializeChecked_no_array fits]
  | object ps => simp [datumSerializeChecked_no_object fits]

end Stored

/-! ## The wire format -/

/-- **A value survives the wire.**  For a valid value shorter than `2 ^ 63` bytes and fuel
beyond its depth, `datum_serialize` writes the value's serialization and raises its flags,
whether errors are checked or not, and `datum_deserialize` reads the serialization back,
leaving what follows in the stream, as a datum the program sees as the value. -/
theorem datum_round_trip {d : Datum} (valid : d.valid = true) (fits : d.encode.length < 2 ^ 63) {fuel : Nat}
    (deep : d.depth ≤ fuel) (checkErrors : CheckDatumSerializationErrors) (rest : List UInt8) :
    datumSerializeChecked (fuel + 1) checkErrors d.toDatumT = some (d.encode, d.serializationResult) ∧
      ∃ read, datumDeserialize (fuel + 1) (d.encode ++ rest) = .ok (read, rest) ∧
        read.observe (fuel + 2) = some d :=
  ⟨(writes_toDatumT checkErrors d fuel (by omega) deep).serializeChecked, d.storedOf [],
    datumDeserialize_encode valid fits fuel rest, observe_storedOf d valid fits fuel deep []⟩

theorem datum_round_trip_nested :
    (Datum.array [.str [0x61], .array [.null, .minval]]).valid = true ∧
      (Datum.array [.str [0x61], .array [.null, .minval]]).encode.length < 2 ^ 63 ∧
      (Datum.array [.str [0x61], .array [.null, .minval]]).depth ≤ 2 ∧
      (datumSerializeChecked 3 .yes (Datum.array [.str [0x61], .array [.null, .minval]]).toDatumT =
          some ((Datum.array [.str [0x61], .array [.null, .minval]]).encode,
            (Datum.array [.str [0x61], .array [.null, .minval]]).serializationResult) ∧
        ∃ read, datumDeserialize 3 ((Datum.array [.str [0x61], .array [.null, .minval]]).encode ++ []) =
            .ok (read, []) ∧ read.observe 4 = some (Datum.array [.str [0x61], .array [.null, .minval]])) :=
  ⟨by decide, by decide, by decide, datum_round_trip (by decide) (by decide) (by decide) .yes []⟩

/-- **Writing a value read from a buffer gives back its bytes.**  Checked, a valid value read
from a buffer is written as its serialization with its flags, every element read again
through the offset table; unchecked, as the same bytes, copied. -/
theorem reserialize_stored {d : Datum} (valid : d.valid = true) (fits : d.encode.length < 2 ^ 63) {fuel : Nat}
    (deep : d.depth ≤ fuel) (tail : List UInt8) :
    datumSerializeChecked (fuel + 1) .yes (d.storedOf tail) = some (d.encode, d.serializationResult) ∧
      (datumSerializeChecked (fuel + 1) .no (d.storedOf tail)).map Prod.fst = some d.encode :=
  ⟨(writes_storedOf d valid fits fuel deep tail).serializeChecked, serializeChecked_no_storedOf fits fuel⟩

theorem reserialize_stored_object :
    (Datum.object [([0x6B], .bool false)]).valid = true ∧
      (Datum.object [([0x6B], .bool false)]).encode.length < 2 ^ 63 ∧
      (Datum.object [([0x6B], .bool false)]).depth ≤ 1 ∧
      (datumSerializeChecked 2 .yes ((Datum.object [([0x6B], .bool false)]).storedOf [0]) =
          some ((Datum.object [([0x6B], .bool false)]).encode,
            (Datum.object [([0x6B], .bool false)]).serializationResult) ∧
        (datumSerializeChecked 2 .no ((Datum.object [([0x6B], .bool false)]).storedOf [0])).map Prod.fst =
          some (Datum.object [([0x6B], .bool false)]).encode) :=
  ⟨by decide, by decide, by decide, reserialize_stored (by decide) (by decide) (by decide) [0]⟩

/-- **Unchecked, the flags of a stored array stop at the array.**  Checked and unchecked
writes of a valid array read from a buffer put down the same bytes, but only the checked one
raises the flags of the elements: the unchecked one copies the bytes and raises at most the
array's own element-count flag, whatever extrema or large arrays the array holds. -/
theorem unchecked_flags_stored_array {ds : List Datum} (valid : (Datum.array ds).valid = true)
    (fits : (Datum.array ds).encode.length < 2 ^ 63) {fuel : Nat} (deep : (Datum.array ds).depth ≤ fuel)
    (tail : List UInt8) :
    datumSerializeChecked (fuel + 1) .yes ((Datum.array ds).storedOf tail) =
        some ((Datum.array ds).encode, (⟨ds.length > 100000, false⟩ : SerializationResult).or (Datum.resultList ds)) ∧
      datumSerializeChecked (fuel + 1) .no ((Datum.array ds).storedOf tail) =
        some ((Datum.array ds).encode, ⟨ds.length > 100000, false⟩) :=
  ⟨(writes_storedOf (.array ds) valid fits fuel deep tail).serializeChecked, datumSerializeChecked_no_array fits fuel⟩

theorem unchecked_flags_stored_minval :
    (Datum.array [.minval]).valid = true ∧ (Datum.array [.minval]).encode.length < 2 ^ 63 ∧
      (Datum.array [.minval]).depth ≤ 1 ∧
      (datumSerializeChecked 2 .yes ((Datum.array [.minval]).storedOf []) =
          some ((Datum.array [.minval]).encode,
            (⟨[Datum.minval].length > 100000, false⟩ : SerializationResult).or (Datum.resultList [.minval])) ∧
        datumSerializeChecked 2 .no ((Datum.array [.minval]).storedOf []) =
          some ((Datum.array [.minval]).encode, ⟨[Datum.minval].length > 100000, false⟩)) :=
  ⟨by decide, by decide, by decide, unchecked_flags_stored_array (by decide) (by decide) (by decide) []⟩

/-- **Random access into a stored array.**  For every index, `get(i)` on a valid array read
from a buffer reads, through the offset table alone, a datum the program sees as element `i`,
and nothing past the end. -/
theorem get_stored_array {ds : List Datum} (valid : (Datum.array ds).valid = true)
    (fits : (Datum.array ds).encode.length < 2 ^ 63) {fuel : Nat} (deep : (Datum.array ds).depth ≤ fuel + 1)
    (tail : List UInt8) (i : Nat) :
    (((Datum.array ds).storedOf tail).get (fuel + 1) i).bind (DatumT.observe (fuel + 2)) = ds[i]? := by
  have validEach : ∀ d ∈ ds, d.valid = true := by simpa [Datum.valid, Datum.validList_iff] using valid
  obtain ⟨container, count⟩ := array_bounds fits
  rw [Datum.storedOf, Datum.encodeList_eq_map]
  by_cases lt : i < ds.length
  · -- Element `i` is read as stored and seen as the element.
    have member : ds.get ⟨i, lt⟩ ∈ ds := List.get_mem ds ⟨i, lt⟩
    rw [get_bufRArray validEach fits fuel lt, Option.bind_some, get_storedElements,
      observe_storedOf _ (validEach _ member) (Nat.lt_trans (Datum.length_lt_of_mem_array member) fits) fuel
        (by have := Datum.depth_lt_of_mem_array member; omega),
      List.getElem?_eq_getElem lt]
    rfl
  · -- Past the end, the count stops the read.
    rw [List.getElem?_eq_none (by omega)]
    simp [DatumT.get, DatumT.arrSize, datumGetArraySize_containerBytes container count, lt]

theorem get_stored_array_second :
    (Datum.array [.null, .bool true]).valid = true ∧ (Datum.array [.null, .bool true]).encode.length < 2 ^ 63 ∧
      (Datum.array [.null, .bool true]).depth ≤ 0 + 1 ∧
      (((Datum.array [.null, .bool true]).storedOf []).get (0 + 1) 1).bind (DatumT.observe (0 + 2)) =
        [Datum.null, .bool true][1]? :=
  ⟨by decide, by decide, by decide, get_stored_array (by decide) (by decide) (by decide) [] 1⟩

/-- **Random access into a stored object.**  For every index, `get_pair(i)` on a valid object
read from a buffer reads, through the offset table alone, a key and a datum the program sees
as pair `i`, and nothing past the end. -/
theorem getPair_stored_object {ps : List (List UInt8 × Datum)} (valid : (Datum.object ps).valid = true)
    (fits : (Datum.object ps).encode.length < 2 ^ 63) {fuel : Nat} (deep : (Datum.object ps).depth ≤ fuel + 1)
    (tail : List UInt8) (i : Nat) :
    (((Datum.object ps).storedOf tail).getPair (fuel + 1) i).bind
        (fun pair => do some ((← pair.1.data), (← pair.2.observe (fuel + 2)))) = ps[i]? := by
  have validEach : ∀ p ∈ ps, p.2.valid = true := by simpa [Datum.valid, Datum.validPairs_iff] using valid
  obtain ⟨container, count⟩ := object_bounds fits
  rw [Datum.storedOf, Datum.encodePairs_eq_map]
  by_cases lt : i < ps.length
  · -- Pair `i` is read as stored: its key reads as the key, its value is seen as the value.
    have member : ps.get ⟨i, lt⟩ ∈ ps := List.get_mem ps ⟨i, lt⟩
    have shorter := Datum.length_lt_of_mem_object member
    simp only [List.length_append, length_stringBytes] at shorter
    rw [getPair_bufRObject validEach fits fuel lt, Option.bind_some, get_storedPairs]
    simp only [DatumString.data_stringBytes (show (ps.get ⟨i, lt⟩).1.length < 2 ^ 64 by omega),
      observe_storedOf _ (validEach _ member) (by omega) fuel
        (by have := Datum.depth_lt_of_mem_object member; omega),
      Option.bind_eq_bind, Option.bind_some, List.getElem?_eq_getElem lt]
    rfl
  · -- Past the end, the count stops the read.
    rw [List.getElem?_eq_none (by omega)]
    simp [DatumT.getPair, DatumT.objSize, datumGetArraySize_containerBytes container count, lt]

theorem getPair_stored_object_first :
    (Datum.object [([0x6B], .null)]).valid = true ∧ (Datum.object [([0x6B], .null)]).encode.length < 2 ^ 63 ∧
      (Datum.object [([0x6B], .null)]).depth ≤ 0 + 1 ∧
      (((Datum.object [([0x6B], .null)]).storedOf []).getPair (0 + 1) 0).bind
          (fun pair => do some ((← pair.1.data), (← pair.2.observe (0 + 2)))) =
        [(([0x6B] : List UInt8), Datum.null)][0]? :=
  ⟨by decide, by decide, by decide, getPair_stored_object (by decide) (by decide) (by decide) [] 0⟩

/-- **The reader finds the writer's offset width.**  For an array or object whose data fits
64-bit sizes, every entry of the offset table fits the width `offset_table_serialized_size`
picks, and when there are several elements `get_offset_size_from_inner_size` recovers that
width from the inner size alone. -/
theorem offset_width_agrees {parts : List (List UInt8)} (fits : (containerBytes parts).length < 2 ^ 64) :
    (∀ entry ∈ Layout.tableEntries (parts.map List.length),
        entry < 256 ^ (containerOffsetSize parts.length (parts.map List.length).sum).width) ∧
      (1 < parts.length → getOffsetSizeFromInnerSize (containerInner parts).length =
        containerOffsetSize parts.length (parts.map List.length).sum) := by
  refine ⟨fun entry member => ?_, getOffsetSizeFromInnerSize_containerInner fits⟩
  simp only [Layout.tableEntries, List.mem_map, List.mem_range, List.length_map] at member
  obtain ⟨j, lt, rfl⟩ := member
  exact start_lt_width fits (by omega)

theorem offset_width_agrees_pair :
    (containerBytes [[1], [2, 3]]).length < 2 ^ 64 ∧
      ((∀ entry ∈ Layout.tableEntries (([[1], [2, 3]] : List (List UInt8)).map List.length),
          entry < 256 ^ (containerOffsetSize 2 (([[1], [2, 3]] : List (List UInt8)).map List.length).sum).width) ∧
        (1 < [[(1 : UInt8)], [2, 3]].length → getOffsetSizeFromInnerSize (containerInner [[1], [2, 3]]).length =
          containerOffsetSize 2 (([[1], [2, 3]] : List (List UInt8)).map List.length).sum)) :=
  ⟨by decide, offset_width_agrees (by decide)⟩

end Ql
end RethinkDB
