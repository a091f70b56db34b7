import RethinkDB.RdbProtocol.SerializeDatum
import RethinkDB.Foundations.Layout
import Mathlib

/-!
# The serialized form of a datum

What `datum_serialize` writes, said of the values of `Datum`: `Datum.encode` lays out the
type byte and the data of every kind of datum, an array or object as its inner size, its
element count, its offset table and its elements.  The writer's choice of offset width is
the one thing taken from the code as it is, `offset_table_serialized_size`; the reader's
choice is shown to agree with it.

Two datums stand for a value in memory.  `Datum.toDatumT` is the in-memory datum of a value,
with its arrays and objects as vectors and its strings in buffers of their own; `storedOf`
is what `datum_deserialize_from_buf` makes of a value's serialization inside a larger buffer,
a reference into that buffer for a string, binary, array or object.  `DatumT.observe` is what
the rest of the program sees of a datum: its scalars, and its elements and pairs read through
`arr_size`, `get`, `obj_size` and `get_pair`.

A value is `valid` when `datum_t`'s constructors accept it: its numbers are finite and its
strings hold no NUL byte.
-/

namespace RethinkDB
namespace Ql

open Containers.Archive

/-! ## Arrays and objects -/

/-- The width the writer picks for the offsets of `n` elements of `elemSz` bytes in all. -/
def containerOffsetSize (n elemSz : Nat) : DatumOffsetSize := (offsetTableSerializedSize n elemSz).2

/-- What follows the inner size of an array or object whose elements serialize to `parts`
(an object's element is its key and its value): the element count, the offset table and the
elements. -/
def containerInner (parts : List (List UInt8)) : List UInt8 :=
  let sizes := parts.map List.length
  serializeVarintUint64 parts.length ++
    (Layout.tableEntries sizes).flatMap (serializeUniversal (containerOffsetSize parts.length sizes.sum).width) ++
    parts.flatten

/-- The data of an array or object after its type byte. -/
def containerBytes (parts : List (List UInt8)) : List UInt8 :=
  serializeVarintUint64 (containerInner parts).length ++ containerInner parts

/-- The data of a string or binary after its type byte, also the serialization of an
object's key: the varint of the size, then the bytes. -/
def stringBytes (bytes : List UInt8) : List UInt8 := serializeVarintUint64 bytes.length ++ bytes

/-- The serialization of a number: a signed varint for an integer of magnitude at most
`2 ^ 53` (`-0.0` among the negative ones), else the double's eight bytes. -/
def numberBytes (x : Binary64) : List UInt8 :=
  match numberAsInteger x with
  | some i =>
    if x.signBit then serializeDatumType .intNegative ++ serializeVarintUint64 (uint64OfInt64 (-i))
    else serializeDatumType .intPositive ++ serializeVarintUint64 (uint64OfInt64 i)
  | none => serializeDatumType .double ++ serializeUniversal 8 x.bits.toNat

/-! ### Strings -/

theorem length_stringBytes (bytes : List UInt8) :
    (stringBytes bytes).length = varintUint64SerializedSize bytes.length + bytes.length := by
  rw [stringBytes, List.length_append, serializeVarintUint64, length_serializeVarintUint64IntoBuf]

/-- `init` writes the string's serialization into a buffer of its own. -/
theorem DatumString.init_eq (bytes : List UInt8) : DatumString.init bytes = ⟨stringBytes bytes ++ []⟩ := by
  rw [List.append_nil]
  rfl

section Strings

variable {bytes tail : List UInt8}

/-- The size of a string in a buffer, whatever follows it there. -/
theorem DatumString.size_stringBytes (small : bytes.length < 2 ^ 64) :
    DatumString.size ⟨stringBytes bytes ++ tail⟩ = some bytes.length := by
  rw [DatumString.size, stringBytes, serializeVarintUint64, List.append_assoc,
    deserializeVarintUint64_serialize small]
  rfl

/-- The bytes of a string in a buffer, whatever follows it there. -/
theorem DatumString.data_stringBytes (small : bytes.length < 2 ^ 64) :
    DatumString.data ⟨stringBytes bytes ++ tail⟩ = some bytes := by
  have varint := length_serializeVarintUint64IntoBuf bytes.length
  simp only [DatumString.data, DatumString.size_stringBytes small, Option.bind_eq_bind, Option.bind_some]
  rw [if_pos (by simp [stringBytes, serializeVarintUint64, varint])]
  simp [stringBytes, serializeVarintUint64, ← varint]

theorem datumStringSerializedSize_stringBytes (small : bytes.length < 2 ^ 64) :
    datumStringSerializedSize ⟨stringBytes bytes ++ tail⟩ = some (stringBytes bytes).length := by
  simp [datumStringSerializedSize, DatumString.size_stringBytes small, length_stringBytes]

/-- A string in a buffer writes out as its serialization. -/
theorem datumStringSerialize_stringBytes (small : bytes.length < 2 ^ 64) :
    datumStringSerialize ⟨stringBytes bytes ++ tail⟩ = some (stringBytes bytes) := by
  simp only [datumStringSerialize, DatumString.size_stringBytes small,
    DatumString.data_stringBytes small, Option.bind_eq_bind, Option.bind_some]
  rfl

end Strings

/-! ### Arrays and objects -/

theorem length_containerInner (parts : List (List UInt8)) :
    (containerInner parts).length = (parts.map List.length).sum +
      (varintUint64SerializedSize parts.length +
        (parts.length - 1) * (containerOffsetSize parts.length (parts.map List.length).sum).width) := by
  have table := Layout.length_flatMap_of_width
    (serializeUniversal (containerOffsetSize parts.length (parts.map List.length).sum).width)
    (fun n => LittleEndian.length_toBytes _ n) (Layout.tableEntries (parts.map List.length))
  simp only [containerInner, List.length_append, serializeVarintUint64,
    length_serializeVarintUint64IntoBuf, table, Layout.length_tableEntries, List.length_map,
    List.length_flatten]
  omega

theorem length_containerBytes (parts : List (List UInt8)) :
    (containerBytes parts).length =
      varintUint64SerializedSize (containerInner parts).length + (containerInner parts).length := by
  rw [containerBytes, List.length_append, serializeVarintUint64, length_serializeVarintUint64IntoBuf]

/-- Every part is shorter than the array or object it is laid out in. -/
theorem length_le_of_mem_parts {parts : List (List UInt8)} {part : List UInt8} (member : part ∈ parts) :
    part.length ≤ (containerBytes parts).length := by
  have inPart : part.length ≤ (parts.map List.length).sum :=
    List.le_sum_of_mem (List.mem_map_of_mem member)
  rw [length_containerBytes, length_containerInner]
  omega

/-! ### Numbers -/

section Numbers

variable {x : Binary64} {i : Int}

/-- What `number_as_integer` accepts: a finite number whose value is the integer, of magnitude
at most `2 ^ 53`. -/
theorem numberAsInteger_spec (integer : numberAsInteger x = some i) :
    x.IsFinite ∧ (i : ℚ) = x.value ∧ i.natAbs ≤ 2 ^ 53 := by
  unfold numberAsInteger at integer
  by_cases inRange : x.IsFinite ∧ -2 ^ 53 ≤ x.value ∧ x.value ≤ 2 ^ 53
  swap
  · rw [if_neg inRange] at integer
    cases integer
  rw [if_pos inRange] at integer
  by_cases exact : (Binary64.ofIntExact (Binary64.truncate x.value)).value = x.value
  swap
  · rw [if_neg exact] at integer
    cases integer
  rw [if_pos exact, Option.some.injEq] at integer
  subst integer
  have bound : ((Binary64.truncate x.value).natAbs : ℚ) ≤ 2 ^ 53 := by
    have := Binary64.natAbs_truncate_le x.value
    have : |x.value| ≤ 2 ^ 53 := abs_le.mpr ⟨inRange.2.1, inRange.2.2⟩
    linarith
  have small : (Binary64.truncate x.value).natAbs ≤ 2 ^ 53 := by exact_mod_cast bound
  exact ⟨inRange.1, (Binary64.value_ofIntExact small).symm.trans exact, small⟩

theorem nonneg_of_numberAsInteger (integer : numberAsInteger x = some i) (sign : x.signBit = false) :
    0 ≤ i := by
  have value : (i : ℚ) = x.value := (numberAsInteger_spec integer).2.1
  rw [Binary64.value_of_signBit_false sign] at value
  have : (0 : ℚ) ≤ i := by rw [value]; positivity
  exact_mod_cast this

theorem nonpos_of_numberAsInteger (integer : numberAsInteger x = some i) (sign : x.signBit = true) :
    i ≤ 0 := by
  have value : (i : ℚ) = x.value := (numberAsInteger_spec integer).2.1
  rw [Binary64.value_of_signBit_true sign] at value
  have : (i : ℚ) ≤ 0 := by rw [value, neg_nonpos]; positivity
  exact_mod_cast this

/-- The `uint64_t` of a non-negative `int64_t` is the number itself. -/
theorem uint64OfInt64_of_nonneg (nonneg : 0 ≤ i) (small : i < 2 ^ 64) : uint64OfInt64 i = i.toNat := by
  rw [uint64OfInt64, Int.emod_eq_of_lt nonneg small]

/-- The magnitude `datum_serialized_size` counts is the one `datum_serialize` writes. -/
theorem magnitude_eq (integer : numberAsInteger x = some i) :
    uint64OfInt64 (if i < 0 then -i else i) = uint64OfInt64 (if x.signBit then -i else i) := by
  cases sign : x.signBit
  · simp [Int.not_lt.mpr (nonneg_of_numberAsInteger integer sign)]
  · have := nonpos_of_numberAsInteger integer sign
    rcases Int.lt_or_eq_of_le this with negative | zero
    · simp [negative]
    · simp [zero]

end Numbers

namespace Datum

mutual

/-- The serialization of a value. -/
def encode : Datum → List UInt8
  | .minval => serializeDatumType .minval
  | .maxval => serializeDatumType .maxval
  | .null => serializeDatumType .rNull
  | .bool b => serializeDatumType .rBool ++ serializeBool b
  | .num x => numberBytes x
  | .str s => serializeDatumType .rStr ++ stringBytes s
  | .binary s => serializeDatumType .rBinary ++ stringBytes s
  | .array elements => serializeDatumType .bufRArray ++ containerBytes (encodeList elements)
  | .object pairs => serializeDatumType .bufRObject ++ containerBytes (encodePairs pairs)

/-- The serializations of an array's elements. -/
def encodeList : List Datum → List (List UInt8)
  | [] => []
  | d :: ds => d.encode :: encodeList ds

/-- The serializations of an object's pairs, each its key's and then its value's. -/
def encodePairs : List (List UInt8 × Datum) → List (List UInt8)
  | [] => []
  | (key, value) :: pairs => (stringBytes key ++ value.encode) :: encodePairs pairs

end

mutual

/-- The datum's numbers are finite and its strings hold no NUL byte. -/
def valid : Datum → Bool
  | .num x => decide x.IsFinite
  | .str s => !s.contains 0
  | .array elements => validList elements
  | .object pairs => validPairs pairs
  | _ => true

def validList : List Datum → Bool
  | [] => true
  | d :: ds => d.valid && validList ds

def validPairs : List (List UInt8 × Datum) → Bool
  | [] => true
  | (_, value) :: pairs => value.valid && validPairs pairs

end

mutual

/-- How deeply arrays and objects nest in the datum. -/
def depth : Datum → Nat
  | .array elements => depthList elements + 1
  | .object pairs => depthPairs pairs + 1
  | _ => 0

def depthList : List Datum → Nat
  | [] => 0
  | d :: ds => max d.depth (depthList ds)

def depthPairs : List (List UInt8 × Datum) → Nat
  | [] => 0
  | (_, value) :: pairs => max value.depth (depthPairs pairs)

end

mutual

/-- The datum a value is in memory. -/
def toDatumT : Datum → DatumT
  | .minval => .minval
  | .maxval => .maxval
  | .null => .rNull
  | .bool b => .rBool b
  | .num x => .rNum x
  | .str s => .rStr (.init s)
  | .binary s => .rBinary (.init s)
  | .array elements => .rArray (toDatumTList elements)
  | .object pairs => .rObject (toDatumTPairs pairs)

def toDatumTList : List Datum → List DatumT
  | [] => []
  | d :: ds => d.toDatumT :: toDatumTList ds

def toDatumTPairs : List (List UInt8 × Datum) → List (DatumString × DatumT)
  | [] => []
  | (key, value) :: pairs => (.init key, value.toDatumT) :: toDatumTPairs pairs

end

mutual

/-- The sizes `datum_serialized_size` computes for a value: its serialized size, and those of
its elements, an object's as key and value. -/
def sizeTree : Datum → SizeTreeNode
  | .array elements => ⟨(Datum.array elements).encode.length, sizeTreeList elements⟩
  | .object pairs => ⟨(Datum.object pairs).encode.length, sizeTreePairs pairs⟩
  | d => ⟨d.encode.length, []⟩

def sizeTreeList : List Datum → List SizeTreeNode
  | [] => []
  | d :: ds => d.sizeTree :: sizeTreeList ds

def sizeTreePairs : List (List UInt8 × Datum) → List SizeTreeNode
  | [] => []
  | (key, value) :: pairs => ⟨(stringBytes key).length, []⟩ :: value.sizeTree :: sizeTreePairs pairs

end

mutual

/-- The flags serializing a value raises: an array of more than `100000` elements, and an
extremum, anywhere in it. -/
def serializationResult : Datum → SerializationResult
  | .minval | .maxval => ⟨false, true⟩
  | .array elements => (⟨elements.length > 100000, false⟩ : SerializationResult).or (resultList elements)
  | .object pairs => resultPairs pairs
  | _ => .success

def resultList : List Datum → SerializationResult
  | [] => .success
  | d :: ds => d.serializationResult.or (resultList ds)

def resultPairs : List (List UInt8 × Datum) → SerializationResult
  | [] => .success
  | (_, value) :: pairs => value.serializationResult.or (resultPairs pairs)

end

/-! ### Induction over members -/

/-- Induction over a value, with the hypothesis for every element of an array and every value
of an object. -/
theorem induction {motive : Datum → Prop} (minval : motive .minval) (maxval : motive .maxval)
    (null : motive .null) (bool : ∀ b, motive (.bool b)) (num : ∀ x, motive (.num x))
    (str : ∀ s, motive (.str s)) (binary : ∀ s, motive (.binary s))
    (array : ∀ elements, (∀ d ∈ elements, motive d) → motive (.array elements))
    (object : ∀ pairs, (∀ p ∈ pairs, motive p.2) → motive (.object pairs)) : ∀ d, motive d := by
  intro d
  cases d with
  | minval => exact minval
  | maxval => exact maxval
  | null => exact null
  | bool b => exact bool b
  | num x => exact num x
  | str s => exact str s
  | binary s => exact binary s
  | array elements =>
    exact array elements fun d _ => induction minval maxval null bool num str binary array object d
  | object pairs =>
    exact object pairs fun p _ => induction minval maxval null bool num str binary array object p.2
termination_by d => d
decreasing_by
  all_goals simp_wf
  · have := List.sizeOf_lt_of_mem ‹d ∈ elements›
    omega
  · have := List.sizeOf_lt_of_mem ‹p ∈ pairs›
    cases p
    simp at this ⊢
    omega

@[simp] theorem encodeList_eq_map (elements : List Datum) :
    encodeList elements = elements.map encode := by
  induction elements with
  | nil => rfl
  | cons d ds ih => simp [encodeList, ih]

@[simp] theorem encodePairs_eq_map (pairs : List (List UInt8 × Datum)) :
    encodePairs pairs = pairs.map fun p => stringBytes p.1 ++ p.2.encode := by
  induction pairs with
  | nil => rfl
  | cons p ps ih => simp [encodePairs, ih]

@[simp] theorem toDatumTList_eq_map (elements : List Datum) :
    toDatumTList elements = elements.map toDatumT := by
  induction elements with
  | nil => rfl
  | cons d ds ih => simp [toDatumTList, ih]

@[simp] theorem toDatumTPairs_eq_map (pairs : List (List UInt8 × Datum)) :
    toDatumTPairs pairs = pairs.map fun p => (DatumString.init p.1, p.2.toDatumT) := by
  induction pairs with
  | nil => rfl
  | cons p ps ih => simp [toDatumTPairs, ih]

@[simp] theorem sizeTreeList_eq_map (elements : List Datum) :
    sizeTreeList elements = elements.map sizeTree := by
  induction elements with
  | nil => rfl
  | cons d ds ih => simp [sizeTreeList, ih]

@[simp] theorem sizeTreePairs_eq_flatMap (pairs : List (List UInt8 × Datum)) :
    sizeTreePairs pairs = pairs.flatMap fun p => [⟨(stringBytes p.1).length, []⟩, p.2.sizeTree] := by
  induction pairs with
  | nil => rfl
  | cons p ps ih => simp [sizeTreePairs, ih]

theorem validList_iff (elements : List Datum) :
    validList elements = true ↔ ∀ d ∈ elements, d.valid = true := by
  induction elements with
  | nil => simp [validList]
  | cons d ds ih => simp [validList, ih]

theorem validPairs_iff (pairs : List (List UInt8 × Datum)) :
    validPairs pairs = true ↔ ∀ p ∈ pairs, p.2.valid = true := by
  induction pairs with
  | nil => simp [validPairs]
  | cons p ps ih => simp [validPairs, ih]

theorem depth_le_depthList {d : Datum} {elements : List Datum} (member : d ∈ elements) :
    d.depth ≤ depthList elements := by
  induction elements with
  | nil => simp at member
  | cons e es ih =>
    rcases List.mem_cons.mp member with rfl | later
    · simp [depthList]
    · exact Nat.le_trans (ih later) (by simp [depthList])

theorem depth_le_depthPairs {p : List UInt8 × Datum} {pairs : List (List UInt8 × Datum)}
    (member : p ∈ pairs) : p.2.depth ≤ depthPairs pairs := by
  induction pairs with
  | nil => simp at member
  | cons q qs ih =>
    rcases List.mem_cons.mp member with rfl | later
    · simp [depthPairs]
    · exact Nat.le_trans (ih later) (by simp [depthPairs])

theorem depth_lt_of_mem_array {d : Datum} {elements : List Datum} (member : d ∈ elements) :
    d.depth < (Datum.array elements).depth :=
  Nat.lt_succ_of_le (depth_le_depthList member)

theorem depth_lt_of_mem_object {p : List UInt8 × Datum} {pairs : List (List UInt8 × Datum)}
    (member : p ∈ pairs) : p.2.depth < (Datum.object pairs).depth :=
  Nat.lt_succ_of_le (depth_le_depthPairs member)

/-- The size `datum_serialized_size` computes is the size of the serialization. -/
@[simp] theorem size_sizeTree (d : Datum) : d.sizeTree.size = d.encode.length := by
  cases d <;> rfl

theorem length_encode_array (elements : List Datum) :
    (Datum.array elements).encode.length = 1 + (containerBytes (elements.map encode)).length := by
  simp [encode, serializeDatumType, serializeRangedInt8, Nat.add_comm]

theorem length_encode_object (pairs : List (List UInt8 × Datum)) :
    (Datum.object pairs).encode.length =
      1 + (containerBytes (pairs.map fun p => stringBytes p.1 ++ p.2.encode)).length := by
  simp [encode, serializeDatumType, serializeRangedInt8, Nat.add_comm]

/-- An element is shorter than the array it is in. -/
theorem length_lt_of_mem_array {d : Datum} {elements : List Datum} (member : d ∈ elements) :
    d.encode.length < (Datum.array elements).encode.length := by
  have := length_le_of_mem_parts (@List.mem_map_of_mem _ _ _ _ encode member)
  rw [length_encode_array]
  omega

/-- A pair is shorter than the object it is in. -/
theorem length_lt_of_mem_object {p : List UInt8 × Datum} {pairs : List (List UInt8 × Datum)}
    (member : p ∈ pairs) : (stringBytes p.1 ++ p.2.encode).length < (Datum.object pairs).encode.length := by
  have := length_le_of_mem_parts
    (@List.mem_map_of_mem _ _ _ _ (fun p : List UInt8 × Datum => stringBytes p.1 ++ p.2.encode) member)
  rw [length_encode_object]
  omega

/-- A string's bytes are shorter than its serialization, and so are a binary's. -/
theorem length_lt_length_encode_str (s : List UInt8) : s.length < (Datum.str s).encode.length := by
  simp [encode, length_stringBytes, serializeDatumType, serializeRangedInt8]

theorem length_lt_length_encode_binary (s : List UInt8) : s.length < (Datum.binary s).encode.length := by
  simp [encode, length_stringBytes, serializeDatumType, serializeRangedInt8]

/-- What `datum_deserialize_from_buf` makes of the value's serialization with `tail` after it
in the buffer: a string, binary, array or object as a reference into the buffer, a scalar as
read. -/
def storedOf (d : Datum) (tail : List UInt8) : DatumT :=
  match d with
  | .minval => .minval
  | .maxval => .maxval
  | .null => .rNull
  | .bool b => .rBool b
  | .num x => .rNum x
  | .str s => .rStr ⟨stringBytes s ++ tail⟩
  | .binary s => .rBinary ⟨stringBytes s ++ tail⟩
  | .array elements => .bufRArray (containerBytes (encodeList elements) ++ tail)
  | .object pairs => .bufRObject (containerBytes (encodePairs pairs) ++ tail)

end Datum

namespace DatumT

/-- What the program sees of a datum: its scalars, the bytes of its strings, and its elements
and pairs as `arr_size`, `get`, `obj_size` and `get_pair` read them. -/
def observe : Nat → DatumT → Option Datum
  | 0, _ => none
  | fuel + 1, datum =>
    match datum with
    | .uninitialized => none
    | .minval => some .minval
    | .maxval => some .maxval
    | .rNull => some .null
    | .rBool b => some (.bool b)
    | .rNum x => some (.num x)
    | .rStr s => s.data.map .str
    | .rBinary s => s.data.map .binary
    | .rArray _ | .bufRArray _ => do
      let elements ← datum.elements fuel
      some (.array (← elements.mapM (observe fuel)))
    | .rObject _ | .bufRObject _ => do
      let pairs ← datum.pairs fuel
      some (.object (← pairs.mapM fun (key, value) => do some ((← key.data), (← observe fuel value))))

end DatumT

end Ql
end RethinkDB
