import RethinkDB.Containers.Archive
import RethinkDB.Foundations.Binary64Integer
import RethinkDB.RdbProtocol.Datum

/-!
# Datum serialization

`rdb_protocol/serialize_datum.cc` writes a `datum_t` as a type byte and its data.  Strings
and binaries are a varint of the size and the bytes.  Arrays and objects are written as
`BUF_R_ARRAY` and `BUF_R_OBJECT`: a varint of the inner size, a varint of the number of
elements, an offset table, then the elements, an object's as key and value one after the
other.  The table holds, for every element but the first, where it starts counted from the
first, at a width of 1, 2, 4 or 8 bytes that the writer picks from the inner size and the
reader picks again from the stored inner size alone.  Numbers are a signed varint when they
are integers of magnitude at most `2 ^ 53`, else the eight bytes of the double.

Reading an array or object back does not rebuild it: `datum_deserialize` keeps the bytes in
a buffer, and `arr_size`, `get`, `obj_size` and `get_pair` of `datum.cc` read through the
offset table on every access.  The writer, asked to check for errors, reads such a datum
through the same accessors; otherwise it copies the buffer.

Everything that recurses through a datum, through its accessors or through a stream takes
a `fuel` argument that bounds the depth of the recursion, so that the functions are
structural and compute.  A `guarantee` that fails and a `base_exc_t` that is thrown are both
`none` here; `datum_deserialize` catches the exceptions its constructors throw and reports
`RANGE_ERROR`, and on its paths no guarantee can fail.
-/

namespace RethinkDB
namespace Ql

open Containers.Archive

/-! ## Buffer references and `datum_string_t` -/

/-- `shared_buf_ref_t::make_child`: the reference `offset` bytes further on, which must stay
inside the buffer.  A reference is the bytes from where it points to the end of its shared
buffer, which is what its reads are bounded by. -/
def makeChild (buf : List UInt8) (offset : Nat) : Option (List UInt8) :=
  if offset ≤ buf.length then some (buf.drop offset) else none

/-- `datum_string_t`: a reference to a buffer that holds the varint of the string's size and
then its bytes. -/
structure DatumString where
  ref : List UInt8
  deriving DecidableEq, Repr

namespace DatumString

/-- `datum_string_t::init`: a new buffer with the varint of the size and the bytes. -/
def init (bytes : List UInt8) : DatumString :=
  ⟨serializeVarintUint64IntoBuf bytes.length ++ bytes⟩

/-- `size()`: the varint at the front of the buffer, which must read.  A `size_t` holds every
`uint64_t`, so the range guarantee after it always holds. -/
def size (s : DatumString) : Option Nat :=
  (deserializeVarintUint64 s.ref).toOption.map Prod.fst

/-- `data()`, read for `size()` bytes: the bytes after the varint, whose length is recomputed
from the size, all of which must lie in the buffer. -/
def data (s : DatumString) : Option (List UInt8) := do
  let strSize ← s.size
  let dataOffset := varintUint64SerializedSize strSize
  if dataOffset + strSize ≤ s.ref.length then some ((s.ref.drop dataOffset).take strSize)
  else none

end DatumString

/-- `datum_serialized_size(const datum_string_t &)`. -/
def datumStringSerializedSize (s : DatumString) : Option Nat := do
  let sSize ← s.size
  some (varintUint64SerializedSize sSize + sSize)

/-- `datum_serialize(write_message_t *, const datum_string_t &)`. -/
def datumStringSerialize (s : DatumString) : Option (List UInt8) := do
  let sSize ← s.size
  let bytes ← s.data
  some (serializeVarintUint64 sSize ++ bytes)

/-- `datum_deserialize(read_stream_t *, datum_string_t *)`: the size, then that many bytes
into a new buffer behind the varint of the size. -/
def datumStringDeserialize (s : List UInt8) : Except ArchiveResult (DatumString × List UInt8) :=
  match deserializeVarintUint64 s with
  | .error e => .error e
  | .ok (sz, s) =>
    let (bytes, rest) := forceRead s sz
    if bytes.length < sz then .error .sockEof
    else .ok (⟨serializeVarintUint64IntoBuf sz ++ bytes⟩, rest)

/-! ## `datum_t` -/

/-- `datum_t` by its `internal_type_t`.  An object's pairs are in memory in key order; an
array or object read back from a serialization is `BUF_R_ARRAY` or `BUF_R_OBJECT`, a
reference to its serialization after the type byte. -/
inductive DatumT where
  | uninitialized
  | minval
  | maxval
  | rNull
  | rBool (value : Bool)
  | rNum (value : Binary64)
  | rStr (value : DatumString)
  | rBinary (value : DatumString)
  | rArray (elements : List DatumT)
  | rObject (pairs : List (DatumString × DatumT))
  | bufRArray (buf : List UInt8)
  | bufRObject (buf : List UInt8)

namespace DatumT

/-- `datum_t(double)`: a non-finite number throws. -/
def ofNum (value : Binary64) : Option DatumT := if value.IsFinite then some (rNum value) else none

/-- `datum_t(datum_string_t)`: `check_str_validity` throws on a NUL byte. -/
def ofStr (s : DatumString) : Option DatumT := do
  let bytes ← s.data
  if bytes.contains 0 then none else some (rStr s)

/-- `get_buf_ref()`. -/
def getBufRef : DatumT → Option (List UInt8)
  | bufRArray buf | bufRObject buf => some buf
  | _ => none

/-- `get_type() == R_OBJECT`. -/
def isObject : DatumT → Bool
  | rObject _ | bufRObject _ => true
  | _ => false

end DatumT

/-- The `uint64_t` an `int64_t` converts to. -/
def uint64OfInt64 (i : Int) : Nat := (i % 2 ^ 64).toNat

/-- `number_as_integer`: the `int64_t` a double truncates to, if the double lies in
`[-2^53, 2^53]` and the integer converts back to it.  A comparison with a NaN is false, and
comparisons of finite doubles are comparisons of their values; an integer of magnitude at
most `2^53` converts to a double exactly. -/
def numberAsInteger (d : Binary64) : Option Int :=
  if d.IsFinite ∧ -2 ^ 53 ≤ d.value ∧ d.value ≤ 2 ^ 53 then
    let i := Binary64.truncate d.value
    if (Binary64.ofIntExact i).value = d.value then some i else none
  else none

/-! ## The type byte -/

/-- `datum_serialized_type_t`. -/
inductive DatumSerializedType where
  | rArray
  | rBool
  | rNull
  | double
  | rObject
  | rStr
  | intNegative
  | intPositive
  | rBinary
  | bufRArray
  | bufRObject
  | uninitialized
  | minval
  | maxval
  deriving DecidableEq, Repr

namespace DatumSerializedType

/-- The enumerator's value. -/
def toInt8 : DatumSerializedType → Int8
  | rArray => 1
  | rBool => 2
  | rNull => 3
  | double => 4
  | rObject => 5
  | rStr => 6
  | intNegative => 7
  | intPositive => 8
  | rBinary => 9
  | bufRArray => 10
  | bufRObject => 11
  | uninitialized => 12
  | minval => 13
  | maxval => 14

/-- The enumerator of a value; the range check before it leaves only `1` to `14`. -/
def ofInt8? (v : Int8) : Option DatumSerializedType :=
  [rArray, rBool, rNull, double, rObject, rStr, intNegative, intPositive, rBinary, bufRArray,
    bufRObject, uninitialized, minval, maxval].find? (·.toInt8 = v)

end DatumSerializedType

/-- `datum_serialize(write_message_t *, datum_serialized_type_t)`: the type as a ranged
`int8_t`. -/
def serializeDatumType (type : DatumSerializedType) : List UInt8 := serializeRangedInt8 type.toInt8

/-- `datum_deserialize(read_stream_t *, datum_serialized_type_t *)`: an `int8_t` in
`[R_ARRAY, MAXVAL]`.  A value without an enumerator would take the `default:` of the
`switch` in `datum_deserialize`, which is `RANGE_ERROR`. -/
def deserializeDatumType (s : List UInt8) : Except ArchiveResult (DatumSerializedType × List UInt8) :=
  match deserializeRangedInt8 1 14 s with
  | .error e => .error e
  | .ok (v, rest) =>
    match DatumSerializedType.ofInt8? v with
    | some type => .ok (type, rest)
    | none => .error .rangeError

/-! ## Offset tables -/

/-- `datum_offset_size_t`. -/
inductive DatumOffsetSize where
  | u8bit
  | u16bit
  | u32bit
  | u64bit
  deriving DecidableEq, Repr

namespace DatumOffsetSize

/-- `serialize_universal_size_t` of the offset type. -/
def width : DatumOffsetSize → Nat
  | u8bit => 1
  | u16bit => 2
  | u32bit => 4
  | u64bit => 8

/-- `std::numeric_limits<...>::max()` of the offset type. -/
def max : DatumOffsetSize → Nat
  | u8bit => 2 ^ 8 - 1
  | u16bit => 2 ^ 16 - 1
  | u32bit => 2 ^ 32 - 1
  | u64bit => 2 ^ 64 - 1

end DatumOffsetSize

/-- `get_offset_size_from_inner_size`.  Every `uint64_t` is at most the last bound, so the
`unreachable()` after it is. -/
def getOffsetSizeFromInnerSize (innerSize : Nat) : DatumOffsetSize :=
  if innerSize ≤ DatumOffsetSize.u8bit.max then .u8bit
  else if innerSize ≤ DatumOffsetSize.u16bit.max then .u16bit
  else if innerSize ≤ DatumOffsetSize.u32bit.max then .u32bit
  else .u64bit

/-- One `Do we have to raise to N bit?` step of `offset_table_serialized_size`: the offsets
at the `current` width, with the `fixed` bytes of the elements and the element count, must
fit the largest number of that width, or the width is raised to `wider`. -/
def raiseOffsetSize (numElements fixed : Nat) (wider current : DatumOffsetSize) : DatumOffsetSize :=
  if fixed + (numElements - 1) * current.width > current.max then wider else current

/-- `offset_table_serialized_size`: the size of the element count and the offset table, and
the width of the offsets. -/
def offsetTableSerializedSize (numElements remainingInnerSize : Nat) : Nat × DatumOffsetSize :=
  let numElementsSz := varintUint64SerializedSize numElements
  if numElements > 1 then
    let fixed := remainingInnerSize + numElementsSz
    let offsetSize := raiseOffsetSize numElements fixed .u64bit <|
      raiseOffsetSize numElements fixed .u32bit <| raiseOffsetSize numElements fixed .u16bit .u8bit
    (numElementsSz + (numElements - 1) * offsetSize.width, offsetSize)
  else (numElementsSz, .u8bit)

/-- The sizes of an object's pairs from the sizes of its keys and values, which
`elem_sizes` holds one after the other. -/
def pairSizes : List Nat → List Nat
  | key :: value :: rest => (key + value) :: pairSizes rest
  | _ => []

/-- The loop of `serialize_offset_table`: for every element but the last, the offset of the
one after it, which must fit the width. -/
def serializeOffsets (offsetSize : DatumOffsetSize) (nextOffset : Nat) : List Nat → Option (List UInt8)
  | size :: sizes@(_ :: _) =>
    let nextOffset := nextOffset + size
    if nextOffset ≤ offsetSize.max then
      (serializeOffsets offsetSize nextOffset sizes).map (serializeUniversal offsetSize.width nextOffset ++ ·)
    else none
  | _ => some []

/-- `serialize_offset_table`: the element count, then the offsets. -/
def serializeOffsetTable (isObject : Bool) (elemSizes : List Nat) (offsetSize : DatumOffsetSize) :
    Option (List UInt8) :=
  let sizes := if isObject then pairSizes elemSizes else elemSizes
  (serializeOffsets offsetSize 0 sizes).map (serializeVarintUint64 sizes.length ++ ·)

/-! ## Sizes -/

/-- `size_tree_node_t`: the serialized size of a datum and those of its elements, an
object's as key and value one after the other. -/
structure SizeTreeNode where
  size : Nat
  childSizes : List SizeTreeNode

/-- `check_datum_serialization_errors_t`. -/
inductive CheckDatumSerializationErrors where
  | yes
  | no
  deriving DecidableEq, Repr

/-- `read_inner_serialized_size_from_buf`: the varint at the front, which must read. -/
def readInnerSerializedSizeFromBuf (buf : List UInt8) : Option Nat :=
  (deserializeVarintUint64 buf).toOption.map Prod.fst

/-! ## Reading a datum -/

/-- The loop of the legacy `datum_deserialize` of a vector: `n` values one after the other. -/
def readMany {α : Type} (read : List UInt8 → Except ArchiveResult (α × List UInt8)) :
    Nat → List UInt8 → Except ArchiveResult (List α × List UInt8)
  | 0, s => .ok ([], s)
  | n + 1, s =>
    match read s with
    | .error e => .error e
    | .ok (a, s) =>
      match readMany read n s with
      | .error e => .error e
      | .ok (as, s) => .ok (a :: as, s)

/-- `datum_deserialize(read_stream_t *, datum_t *)`.  `fuel` bounds the nesting of the legacy
`R_ARRAY` and `R_OBJECT` formats, the only ones read by recursion.  The `R_OBJECT`
constructor also sanitizes pseudotypes, which is not modelled here. -/
def datumDeserialize : Nat → List UInt8 → Except ArchiveResult (DatumT × List UInt8)
  | 0, _ => .error .rangeError
  | fuel + 1, s =>
    match deserializeDatumType s with
    | .error e => .error e
    | .ok (type, s) =>
      match type with
      | .minval => .ok (.minval, s)
      | .rArray =>
        match deserializeVarintUint64 s with
        | .error e => .error e
        | .ok (sz, s) =>
          match readMany (datumDeserialize fuel) sz s with
          | .error e => .error e
          | .ok (elements, s) => .ok (.rArray elements, s)
      | .rBinary =>
        match datumStringDeserialize s with
        | .error e => .error e
        | .ok (value, s) => .ok (.rBinary value, s)
      | .rBool =>
        match deserializeBool s with
        | .error e => .error e
        | .ok (value, s) => .ok (.rBool value, s)
      | .rNull => .ok (.rNull, s)
      | .double =>
        match deserializeUniversal 8 s with
        | .error e => .error e
        | .ok (bits, s) =>
          match DatumT.ofNum ⟨bits.toUInt64⟩ with
          | some datum => .ok (datum, s)
          | none => .error .rangeError
      | .intNegative | .intPositive =>
        match deserializeVarintUint64 s with
        | .error e => .error e
        | .ok (unsignedValue, s) =>
          -- The comparison converts `unsigned_value` to a double first, so `2^53 + 1`, which
          -- rounds to `2^53`, passes, and is read as `2^53`.
          if (Binary64.ofNatExact unsignedValue).value > 2 ^ 53 then .error .rangeError
          else
            let d := Binary64.ofNatExact unsignedValue
            let value := if type = .intNegative then d.neg else d
            match DatumT.ofNum value with
            | some datum => .ok (datum, s)
            | none => .error .rangeError
      | .rObject =>
        match deserializeVarintUint64 s with
        | .error e => .error e
        | .ok (sz, s) =>
          let readPair := fun s =>
            match datumStringDeserialize s with
            | .error e => .error e
            | .ok (key, s) =>
              match datumDeserialize fuel s with
              | .error e => .error e
              | .ok (value, s) => .ok ((key, value), s)
          match readMany readPair sz s with
          | .error e => .error e
          | .ok (pairs, s) => .ok (.rObject pairs, s)
      | .rStr =>
        match datumStringDeserialize s with
        | .error e => .error e
        | .ok (value, s) =>
          match DatumT.ofStr value with
          | some datum => .ok (datum, s)
          | none => .error .rangeError
      | .bufRArray | .bufRObject =>
        match deserializeVarintUint64 s with
        | .error e => .error e
        | .ok (serSize, s) =>
          let serSizeSz := varintUint64SerializedSize serSize
          if serSize > 2 ^ 64 - 1 - serSizeSz ∨ serSize > 2 ^ 63 - 1 - serSizeSz then .error .rangeError
          else
            let (bytes, s) := forceRead s serSize
            if bytes.length < serSize then .error .sockEof
            else
              let buf := serializeVarintUint64IntoBuf serSize ++ bytes
              .ok (if type = .bufRArray then .bufRArray buf else .bufRObject buf, s)
      | .maxval => .ok (.maxval, s)
      | .uninitialized => .ok (.uninitialized, s)

/-! ## Reading through a buffer -/

/-- `datum_get_array_size`: the element count, after the inner size. -/
def datumGetArraySize (array : List UInt8) : Option Nat := do
  let (_, s) ← (deserializeVarintUint64 array).toOption
  let (numElements, _) ← (deserializeVarintUint64 s).toOption
  some numElements

/-- `datum_get_element_offset`: where element `index` starts in the buffer.  The first
starts right after the offset table; entry `index - 1` of the table says how far after the
first the others start. -/
def datumGetElementOffset (array : List UInt8) (index : Nat) : Option Nat := do
  let (serSize, s) ← (deserializeVarintUint64 array).toOption
  let offsetSize := getOffsetSizeFromInnerSize serSize
  let (numElements, s) ← (deserializeVarintUint64 s).toOption
  if index < numElements then
    -- `tell()` of the stream: how many bytes the two varints took.
    let tell := array.length - s.length
    let dataOffset := tell + (numElements - 1) * offsetSize.width
    if index = 0 then some dataOffset
    else
      let elementOffsetOffset := tell + (index - 1) * offsetSize.width
      if elementOffsetOffset ≤ array.length then do
        let (elementOffset, _) ←
          (deserializeUniversal offsetSize.width (array.drop elementOffsetOffset)).toOption
        some (dataOffset + elementOffset)
      else none
  else none

/-- `datum_deserialize_from_buf`: the datum at `atOffset`.  A string, binary, array or
object is a reference into the buffer after its type byte; anything else is read from a
stream over the buffer from `atOffset`. -/
def datumDeserializeFromBuf (fuel : Nat) (buf : List UInt8) (atOffset : Nat) : Option DatumT :=
  if atOffset ≤ buf.length then do
    let stream := buf.drop atOffset
    let (type, s) ← (deserializeDatumType stream).toOption
    let dataOffset := atOffset + (stream.length - s.length)
    match type with
    | .rStr => do DatumT.ofStr ⟨← makeChild buf dataOffset⟩
    | .bufRArray => do some (.bufRArray (← makeChild buf dataOffset))
    | .bufRObject => do some (.bufRObject (← makeChild buf dataOffset))
    | .rBinary => do some (.rBinary ⟨← makeChild buf dataOffset⟩)
    | _ => (datumDeserialize fuel stream).toOption.map Prod.fst
  else none

/-- `datum_deserialize_pair_from_buf`: the key at `atOffset`, and the value after the
key's serialization, whose size is computed again from the key. -/
def datumDeserializePairFromBuf (fuel : Nat) (buf : List UInt8) (atOffset : Nat) :
    Option (DatumString × DatumT) := do
  let key : DatumString := ⟨← makeChild buf atOffset⟩
  let keySerSize ← datumStringSerializedSize key
  let value ← datumDeserializeFromBuf fuel buf (atOffset + keySerSize)
  some (key, value)

namespace DatumT

/-- `arr_size()`. -/
def arrSize : DatumT → Option Nat
  | rArray elements => some elements.length
  | bufRArray buf => datumGetArraySize buf
  | _ => none

/-- `unchecked_get(index)`. -/
def uncheckedGet (fuel : Nat) : DatumT → Nat → Option DatumT
  | rArray elements, index => elements[index]?
  | bufRArray buf, index => do datumDeserializeFromBuf fuel buf (← datumGetElementOffset buf index)
  | _, _ => none

/-- `get(index)`, which throws on an index out of bounds. -/
def get (fuel : Nat) (datum : DatumT) (index : Nat) : Option DatumT := do
  if index < (← datum.arrSize) then datum.uncheckedGet fuel index else none

/-- `obj_size()`. -/
def objSize : DatumT → Option Nat
  | rObject pairs => some pairs.length
  | bufRObject buf => datumGetArraySize buf
  | _ => none

/-- `unchecked_get_pair(index)`. -/
def uncheckedGetPair (fuel : Nat) : DatumT → Nat → Option (DatumString × DatumT)
  | rObject pairs, index => pairs[index]?
  | bufRObject buf, index => do datumDeserializePairFromBuf fuel buf (← datumGetElementOffset buf index)
  | _, _ => none

/-- `get_pair(index)`, which guarantees the index is in bounds. -/
def getPair (fuel : Nat) (datum : DatumT) (index : Nat) : Option (DatumString × DatumT) := do
  if index < (← datum.objSize) then datum.uncheckedGetPair fuel index else none

/-- The elements of an array, `get(i)` for every `i` below `arr_size()`, as the loops of the
serializer read them. -/
def elements (fuel : Nat) (datum : DatumT) : Option (List DatumT) := do
  (List.range (← datum.arrSize)).mapM (datum.get fuel)

/-- The pairs of an object, `get_pair(i)` for every `i` below `obj_size()`. -/
def pairs (fuel : Nat) (datum : DatumT) : Option (List (DatumString × DatumT)) := do
  (List.range (← datum.objSize)).mapM (datum.getPair fuel)

end DatumT

/-! ## Writing a datum -/

/-- `datum_array_inner_serialized_size`: the elements, the element count and the offset
table, and the width of the offsets.  The count is `obj_size()` or `arr_size()` of the datum,
as its type says. -/
def datumArrayInnerSerializedSize (datum : DatumT) (childSizes : List SizeTreeNode) :
    Option (Nat × DatumOffsetSize) := do
  let elemSz := (childSizes.map SizeTreeNode.size).sum
  let numElements ← if datum.isObject then datum.objSize else datum.arrSize
  let (tableSz, offsetSize) := offsetTableSerializedSize numElements elemSz
  some (elemSz + tableSz, offsetSize)


/-- `serialization_result_t`: the two flags a serialization may raise. -/
structure SerializationResult where
  arrayTooBig : Bool
  extremaPresent : Bool
  deriving DecidableEq, Repr

namespace SerializationResult

def success : SerializationResult := ⟨false, false⟩

/-- `operator |`. -/
def or (first second : SerializationResult) : SerializationResult :=
  ⟨first.arrayTooBig || second.arrayTooBig, first.extremaPresent || second.extremaPresent⟩

end SerializationResult

/-- `datum_array_serialized_size` and `datum_object_serialized_size`: an existing
serialization is used as it is unless errors are checked; otherwise every element is sized
by `size` (an object's key as a string, its value by `size`), and the varint of the inner
size goes in front.  Returns the size and the child sizes. -/
def datumArraySerializedSize (fuel : Nat) (size : DatumT → Option SizeTreeNode)
    (checkErrors : CheckDatumSerializationErrors) (isObject : Bool) (datum : DatumT) :
    Option (Nat × List SizeTreeNode) := do
  let (sz, childSizes) ← match datum.getBufRef, checkErrors with
    | some buf, .no => do some ((← readInnerSerializedSizeFromBuf buf), [])
    | _, _ =>
      if isObject then do
        let pairs ← datum.pairs fuel
        let sized ← pairs.mapM fun (key, value) => do
          let keySize ← datumStringSerializedSize key
          let valSize ← size value
          some [⟨keySize, []⟩, valSize]
        let childSizes := sized.flatten
        some ((← datumArrayInnerSerializedSize datum childSizes).1, childSizes)
      else do
        let elemSizes ← (← datum.elements fuel).mapM size
        some ((← datumArrayInnerSerializedSize datum elemSizes).1, elemSizes)
  some (sz + varintUint64SerializedSize sz, childSizes)

/-- `datum_serialized_size(const datum_t &, check_errors, child_sizes_out)`: one byte for the
type and then the data. -/
def datumSerializedSize : Nat → CheckDatumSerializationErrors → DatumT → Option SizeTreeNode
  | 0, _, _ => none
  | fuel + 1, checkErrors, datum =>
    match datum with
    | .minval | .rNull | .maxval | .uninitialized => some ⟨1, []⟩
    | .rArray _ | .bufRArray _ => do
      let (sz, childSizes) ←
        datumArraySerializedSize fuel (datumSerializedSize fuel checkErrors) checkErrors false datum
      some ⟨1 + sz, childSizes⟩
    | .rObject _ | .bufRObject _ => do
      let (sz, childSizes) ←
        datumArraySerializedSize fuel (datumSerializedSize fuel checkErrors) checkErrors true datum
      some ⟨1 + sz, childSizes⟩
    | .rBinary value | .rStr value => do some ⟨1 + (← datumStringSerializedSize value), []⟩
    | .rBool _ => some ⟨1 + 1, []⟩
    | .rNum d =>
      match numberAsInteger d with
      | some i => some ⟨1 + varintUint64SerializedSize (uint64OfInt64 (if i < 0 then -i else i)), []⟩
      | none => some ⟨1 + 8, []⟩

/-- `datum_array_serialize` and `datum_object_serialize`: the existing serialization after
its type byte, unless errors are checked; otherwise the inner size, the offset table and the
elements, each written by `write` with its precomputed size (an object's key as a string). -/
def datumArraySerialize (fuel : Nat) (write : DatumT → SizeTreeNode → Option (List UInt8 × SerializationResult))
    (checkErrors : CheckDatumSerializationErrors) (isObject : Bool) (datum : DatumT)
    (precomputedSizes : SizeTreeNode) : Option (List UInt8 × SerializationResult) :=
  match datum.getBufRef, checkErrors with
  | some buf, .no =>
    -- Subtract 1 for the type byte, which is not rewritten.
    if precomputedSizes.size - 1 ≤ buf.length then some (buf.take (precomputedSizes.size - 1), .success)
    else none
  | _, _ => do
    let childSizes := precomputedSizes.childSizes
    let (innerSize, offsetSize) ← datumArrayInnerSerializedSize datum childSizes
    let table ← serializeOffsetTable datum.isObject (childSizes.map SizeTreeNode.size) offsetSize
    let header := serializeVarintUint64 innerSize ++ table
    if isObject then do
      let pairs ← datum.pairs fuel
      if childSizes.length = pairs.length * 2 then do
        let written ← pairs.zipIdx.mapM fun ((key, value), i) => do
          let keyBytes ← datumStringSerialize key
          let (valueBytes, result) ← write value (← childSizes[i * 2 + 1]?)
          some (keyBytes ++ valueBytes, result)
        some (header ++ (written.map Prod.fst).flatten,
          written.foldl (fun res w => res.or w.2) .success)
      else none
    else do
      let elements ← datum.elements fuel
      if childSizes.length = elements.length then do
        let written ← (elements.zip childSizes).mapM fun (element, childSize) => write element childSize
        some (header ++ (written.map Prod.fst).flatten,
          written.foldl (fun res w => res.or w.2) .success)
      else none

/-- `datum_serialize(write_message_t *, const datum_t &, check_errors, precomputed_size)`. -/
def datumSerialize : Nat → CheckDatumSerializationErrors → DatumT → SizeTreeNode →
    Option (List UInt8 × SerializationResult)
  | 0, _, _, _ => none
  | fuel + 1, checkErrors, datum, precomputedSize =>
    match datum with
    | .minval => some (serializeDatumType .minval, ⟨false, true⟩)
    | .rArray _ | .bufRArray _ => do
      let tooBig : SerializationResult := ⟨(← datum.arrSize) > 100000, false⟩
      let (bytes, res) ←
        datumArraySerialize fuel (datumSerialize fuel checkErrors) checkErrors false datum precomputedSize
      some (serializeDatumType .bufRArray ++ bytes, tooBig.or res)
    | .rBinary value => do
      -- The results of these two writes are dropped.
      some (serializeDatumType .rBinary ++ (← datumStringSerialize value), .success)
    | .rBool value => some (serializeDatumType .rBool ++ serializeBool value, .success)
    | .rNull => some (serializeDatumType .rNull, .success)
    | .rNum value =>
      match numberAsInteger value with
      | some i =>
        -- `-0.0` is written as `INT_NEGATIVE`.
        if value.signBit then
          some (serializeDatumType .intNegative ++ serializeVarintUint64 (uint64OfInt64 (-i)), .success)
        else some (serializeDatumType .intPositive ++ serializeVarintUint64 (uint64OfInt64 i), .success)
      | none => some (serializeDatumType .double ++ serializeUniversal 8 value.bits.toNat, .success)
    | .rObject _ | .bufRObject _ => do
      let (bytes, res) ←
        datumArraySerialize fuel (datumSerialize fuel checkErrors) checkErrors true datum precomputedSize
      some (serializeDatumType .bufRObject ++ bytes, res)
    | .rStr value => do some (serializeDatumType .rStr ++ (← datumStringSerialize value), .success)
    | .maxval => some (serializeDatumType .maxval, ⟨false, true⟩)
    | .uninitialized => some (serializeDatumType .uninitialized, .success)

/-- `datum_serialize(write_message_t *, const datum_t &, check_errors)`: the sizes first, then
the bytes. -/
def datumSerializeChecked (fuel : Nat) (checkErrors : CheckDatumSerializationErrors) (datum : DatumT) :
    Option (List UInt8 × SerializationResult) := do
  datumSerialize fuel checkErrors datum (← datumSerializedSize fuel checkErrors datum)

end Ql
end RethinkDB
