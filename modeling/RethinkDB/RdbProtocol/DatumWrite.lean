import RethinkDB.RdbProtocol.DatumFormat

/-!
# Writing a datum

`datum_serialized_size` and `datum_serialize` of `serialize_datum.cc` are shown to write a
value as `Datum.encode` lays it out.  The sizes computed first are the sizes of what is then
written, the offsets of an array or object fit the width `offset_table_serialized_size` picks
for them, and the flags raised are those of the value.

The writer is run on any datum whose elements and pairs are read as a value's: the value in
memory (`Datum.toDatumT`) here, and a value read back from a buffer in `DatumRead`.  The cases
of an array and an object are therefore stated over a datum with the elements it yields, and
`Writes` names what the writer does with one datum.
-/

namespace RethinkDB
namespace Ql

open Containers.Archive

/-! ## Offset widths -/

theorem offsetTableSerializedSize_fst (n elemSz : Nat) :
    (offsetTableSerializedSize n elemSz).1 =
      varintUint64SerializedSize n + (n - 1) * (containerOffsetSize n elemSz).width := by
  unfold containerOffsetSize offsetTableSerializedSize
  split
  · rfl
  · have : n - 1 = 0 := by omega
    simp [this]

theorem raiseOffsetSize_of_le {n fixed : Nat} {wider current : DatumOffsetSize}
    (fits : fixed + (n - 1) * current.width ≤ current.max) : raiseOffsetSize n fixed wider current = current :=
  if_neg (Nat.not_lt.mpr fits)

theorem raiseOffsetSize_of_gt {n fixed : Nat} {wider current : DatumOffsetSize}
    (exceeds : current.max < fixed + (n - 1) * current.width) : raiseOffsetSize n fixed wider current = wider :=
  if_pos exceeds

/-- The width the writer picks is the narrowest whose largest number holds the elements, the
element count and the offsets at that width. -/
theorem containerOffsetSize_cases {n elemSz : Nat} (many : 1 < n) :
    let fixed := elemSz + varintUint64SerializedSize n
    (fixed + (n - 1) ≤ 2 ^ 8 - 1 ∧ containerOffsetSize n elemSz = .u8bit) ∨
    (2 ^ 8 - 1 < fixed + (n - 1) ∧ fixed + (n - 1) * 2 ≤ 2 ^ 16 - 1 ∧
      containerOffsetSize n elemSz = .u16bit) ∨
    (2 ^ 16 - 1 < fixed + (n - 1) * 2 ∧ fixed + (n - 1) * 4 ≤ 2 ^ 32 - 1 ∧
      containerOffsetSize n elemSz = .u32bit) ∨
    (2 ^ 32 - 1 < fixed + (n - 1) * 4 ∧ containerOffsetSize n elemSz = .u64bit) := by
  intro fixed
  have picked : containerOffsetSize n elemSz = raiseOffsetSize n fixed .u64bit
      (raiseOffsetSize n fixed .u32bit (raiseOffsetSize n fixed .u16bit .u8bit)) := by
    simp [containerOffsetSize, offsetTableSerializedSize, many, fixed]
  rw [picked]
  -- Each width is tried in turn, and a narrower one that is kept holds the wider sums too.
  by_cases over8 : 2 ^ 8 - 1 < fixed + (n - 1) * 1
  · rw [@raiseOffsetSize_of_gt n fixed .u16bit .u8bit over8]
    by_cases over16 : 2 ^ 16 - 1 < fixed + (n - 1) * 2
    · rw [@raiseOffsetSize_of_gt n fixed .u32bit .u16bit over16]
      by_cases over32 : 2 ^ 32 - 1 < fixed + (n - 1) * 4
      · rw [@raiseOffsetSize_of_gt n fixed .u64bit .u32bit over32]
        exact .inr (.inr (.inr ⟨over32, rfl⟩))
      · rw [@raiseOffsetSize_of_le n fixed .u64bit .u32bit
          (by simp only [DatumOffsetSize.width, DatumOffsetSize.max]; omega)]
        exact .inr (.inr (.inl ⟨over16, by omega, rfl⟩))
    · rw [@raiseOffsetSize_of_le n fixed .u32bit .u16bit
          (by simp only [DatumOffsetSize.width, DatumOffsetSize.max]; omega),
        @raiseOffsetSize_of_le n fixed .u64bit .u16bit
          (by simp only [DatumOffsetSize.width, DatumOffsetSize.max]; omega)]
      exact .inr (.inl ⟨by omega, by omega, rfl⟩)
  · rw [@raiseOffsetSize_of_le n fixed .u16bit .u8bit
        (by simp only [DatumOffsetSize.width, DatumOffsetSize.max]; omega),
      @raiseOffsetSize_of_le n fixed .u32bit .u8bit
        (by simp only [DatumOffsetSize.width, DatumOffsetSize.max]; omega),
      @raiseOffsetSize_of_le n fixed .u64bit .u8bit
        (by simp only [DatumOffsetSize.width, DatumOffsetSize.max]; omega)]
    exact .inl ⟨by omega, rfl⟩

/-- `get_offset_size_from_inner_size` finds from the inner size of an array or object of
several elements the width its offsets were written at. -/
theorem getOffsetSizeFromInnerSize_eq {n elemSz : Nat} (many : 1 < n)
    (fits : elemSz + (offsetTableSerializedSize n elemSz).1 < 2 ^ 64) :
    getOffsetSizeFromInnerSize (elemSz + (offsetTableSerializedSize n elemSz).1) =
      containerOffsetSize n elemSz := by
  rw [offsetTableSerializedSize_fst] at *
  unfold getOffsetSizeFromInnerSize
  rcases @containerOffsetSize_cases n elemSz many with
    ⟨fits8, eq⟩ | ⟨over8, fits16, eq⟩ | ⟨over16, fits32, eq⟩ | ⟨over32, eq⟩ <;>
  · simp only [eq, DatumOffsetSize.width, DatumOffsetSize.max] at fits ⊢
    split_ifs <;> first | rfl | omega

/-- Every offset of the table is at most the largest number of the width the writer picks:
an offset is at most the sizes of the elements before the last. -/
theorem sum_dropLast_le_max {sizes : List Nat} (fits : sizes.sum < 2 ^ 64) :
    sizes.dropLast.sum ≤ (containerOffsetSize sizes.length sizes.sum).max := by
  match sizes with
  | [] => exact Nat.zero_le _
  | [_] => exact Nat.zero_le _
  | a :: b :: rest =>
    have front : (a :: b :: rest).dropLast.sum ≤ (a :: b :: rest).sum :=
      (List.dropLast_sublist _).sum_le_sum fun _ _ => Nat.zero_le _
    rcases @containerOffsetSize_cases (a :: b :: rest).length (a :: b :: rest).sum (by simp) with
      ⟨_, eq⟩ | ⟨_, _, eq⟩ | ⟨_, _, eq⟩ | ⟨_, eq⟩ <;>
    · simp only [eq, DatumOffsetSize.max] at *
      omega

/-! ## Offset tables -/

theorem pairSizes_flatMap {α : Type} (f g : α → Nat) :
    ∀ l : List α, pairSizes (l.flatMap fun a => [f a, g a]) = l.map fun a => f a + g a
  | [] => rfl
  | a :: l => by
    rw [List.flatMap_cons, List.cons_append, List.cons_append, List.nil_append, pairSizes,
      pairSizes_flatMap f g l, List.map_cons]

/-- The loop of `serialize_offset_table` writes the table's entries, each after `acc`, while
the largest of them fits the width. -/
theorem serializeOffsets_eq (offsetSize : DatumOffsetSize) :
    ∀ (sizes : List Nat) (acc : Nat), acc + sizes.dropLast.sum ≤ offsetSize.max →
      serializeOffsets offsetSize acc sizes =
        some (((Layout.tableEntries sizes).map (acc + ·)).flatMap (serializeUniversal offsetSize.width))
  | [], _, _ => by simp [serializeOffsets, Layout.tableEntries]
  | [_], _, _ => by simp [serializeOffsets, Layout.tableEntries]
  | size :: next :: rest, acc, fits => by
    have first : acc + size ≤ offsetSize.max := by
      simp only [List.dropLast_cons_cons, List.sum_cons] at fits
      omega
    have later : acc + size + (next :: rest).dropLast.sum ≤ offsetSize.max := by
      simp only [List.dropLast_cons_cons, List.sum_cons] at fits
      omega
    rw [serializeOffsets, if_pos first, serializeOffsets_eq offsetSize (next :: rest) (acc + size) later,
      Layout.tableEntries_cons_cons, List.map_cons, List.map_map, List.flatMap_cons]
    simp only [Option.map_some, Function.comp_def, Nat.add_assoc]

/-- `serialize_offset_table` writes the element count and the table of the layout. -/
theorem serializeOffsetTable_eq {sizes : List Nat} (fits : sizes.sum < 2 ^ 64) :
    serializeOffsetTable false sizes (containerOffsetSize sizes.length sizes.sum) =
      some (serializeVarintUint64 sizes.length ++ (Layout.tableEntries sizes).flatMap
        (serializeUniversal (containerOffsetSize sizes.length sizes.sum).width)) := by
  have table := serializeOffsets_eq (containerOffsetSize sizes.length sizes.sum) sizes 0
    (by simpa using sum_dropLast_le_max fits)
  simp only [Nat.zero_add, List.map_id'] at table
  simp [serializeOffsetTable, table]

/-- An object's table is the table of its pairs. -/
theorem serializeOffsetTable_object (elemSizes : List Nat) (offsetSize : DatumOffsetSize) :
    serializeOffsetTable true elemSizes offsetSize =
      serializeOffsetTable false (pairSizes elemSizes) offsetSize := by
  simp [serializeOffsetTable]

/-- The inner size of an array or object is what the writer computes from its elements. -/
theorem length_containerInner_eq (parts : List (List UInt8)) :
    (containerInner parts).length = (parts.map List.length).sum +
      (offsetTableSerializedSize parts.length (parts.map List.length).sum).1 := by
  rw [length_containerInner, offsetTableSerializedSize_fst]

/-- The data of an array or object, as the writer puts it down: the inner size, the element
count and the table, and the elements. -/
theorem containerBytes_eq (parts : List (List UInt8)) :
    containerBytes parts =
      serializeVarintUint64 ((parts.map List.length).sum +
          (offsetTableSerializedSize parts.length (parts.map List.length).sum).1) ++
        (serializeVarintUint64 parts.length ++ (Layout.tableEntries (parts.map List.length)).flatMap
          (serializeUniversal (containerOffsetSize parts.length (parts.map List.length).sum).width)) ++
        parts.flatten := by
  rw [containerBytes, length_containerInner_eq, containerInner, List.append_assoc, List.append_assoc,
    List.append_assoc]

theorem sum_le_length_containerBytes (parts : List (List UInt8)) :
    (parts.map List.length).sum ≤ (containerBytes parts).length := by
  rw [length_containerBytes, length_containerInner]
  omega

/-! ## Flags -/

namespace SerializationResult

@[simp] theorem success_or (result : SerializationResult) : success.or result = result := rfl

@[simp] theorem or_success (result : SerializationResult) : result.or success = result := by
  simp [or, success]

theorem or_assoc (first second third : SerializationResult) :
    (first.or second).or third = first.or (second.or third) := by
  simp [or, Bool.or_assoc]

end SerializationResult

/-- The writer's fold over the flags of the elements, from the left, gives the flags of the
elements. -/
theorem foldl_or_resultList :
    ∀ (ds : List Datum) (acc : SerializationResult),
      ds.foldl (fun res d => res.or d.serializationResult) acc = acc.or (Datum.resultList ds)
  | [], acc => by simp [Datum.resultList]
  | d :: ds, acc => by
    rw [List.foldl_cons, foldl_or_resultList ds, Datum.resultList, SerializationResult.or_assoc]

theorem foldl_or_resultPairs :
    ∀ (ps : List (List UInt8 × Datum)) (acc : SerializationResult),
      ps.foldl (fun res p => res.or p.2.serializationResult) acc = acc.or (Datum.resultPairs ps)
  | [], acc => by simp [Datum.resultPairs]
  | p :: ps, acc => by
    rw [List.foldl_cons, foldl_or_resultPairs ps, Datum.resultPairs, SerializationResult.or_assoc]

/-! ## Arrays and objects -/

/-- The sizes of an object's keys and values, one after the other. -/
theorem map_size_sizeTreePairs (ps : List (List UInt8 × Datum)) :
    (Datum.sizeTreePairs ps).map SizeTreeNode.size =
      ps.flatMap fun q => [(stringBytes q.1).length, q.2.encode.length] := by
  simp [List.map_flatMap]

theorem sum_size_sizeTreePairs (ps : List (List UInt8 × Datum)) :
    ((Datum.sizeTreePairs ps).map SizeTreeNode.size).sum =
      ((ps.map fun q => stringBytes q.1 ++ q.2.encode).map List.length).sum := by
  rw [map_size_sizeTreePairs, Layout.sum_flatMap_pair, List.map_map]
  simp [Function.comp_def]

section Containers

variable {fuel : Nat} {checkErrors : CheckDatumSerializationErrors} {datum : DatumT}

theorem arrSize_of_elements {elements : List DatumT} (read : datum.elements fuel = some elements) :
    datum.arrSize = some elements.length := by
  unfold DatumT.elements at read
  cases counted : datum.arrSize with
  | none => simp [counted] at read
  | some n =>
    simp only [counted, Option.bind_eq_bind, Option.bind_some] at read
    rw [Layout.length_of_mapM_eq_some read, List.length_range]

theorem objSize_of_pairs {pairs : List (DatumString × DatumT)} (read : datum.pairs fuel = some pairs) :
    datum.objSize = some pairs.length := by
  unfold DatumT.pairs at read
  cases counted : datum.objSize with
  | none => simp [counted] at read
  | some n =>
    simp only [counted, Option.bind_eq_bind, Option.bind_some] at read
    rw [Layout.length_of_mapM_eq_some read, List.length_range]

theorem isObject_of_arrSize {n : Nat} (counted : datum.arrSize = some n) : datum.isObject = false := by
  cases datum <;> simp_all [DatumT.arrSize, DatumT.isObject]

theorem isObject_of_objSize {n : Nat} (counted : datum.objSize = some n) : datum.isObject = true := by
  cases datum <;> simp_all [DatumT.objSize, DatumT.isObject]

theorem datumArrayInnerSerializedSize_eq {childSizes : List SizeTreeNode} {n : Nat}
    (counted : (if datum.isObject then datum.objSize else datum.arrSize) = some n) :
    datumArrayInnerSerializedSize datum childSizes =
      some ((childSizes.map SizeTreeNode.size).sum +
          (offsetTableSerializedSize n (childSizes.map SizeTreeNode.size).sum).1,
        containerOffsetSize n (childSizes.map SizeTreeNode.size).sum) := by
  unfold datumArrayInnerSerializedSize
  cases object : datum.isObject <;>
  · simp only [object, Bool.false_eq_true, if_true, if_false] at counted ⊢
    simp [counted, containerOffsetSize]

/-- An existing serialization is copied only when errors are not checked: the copy branch of
the writer is not taken for a datum built in memory, nor when errors are checked. -/
theorem checkErrors_ne_no_of_getBufRef {buf : List UInt8}
    (rewritten : datum.getBufRef = none ∨ checkErrors = .yes) (isRef : datum.getBufRef = some buf) :
    checkErrors ≠ .no := by
  rcases rewritten with none | rfl
  · rw [none] at isRef
    cases isRef
  · intro same
    cases same

/-- The sizes of an array whose elements are sized as the elements of a value. -/
theorem datumArraySerializedSize_array {size : DatumT → Option SizeTreeNode}
    {elements : List DatumT} {ds : List Datum}
    (rewritten : datum.getBufRef = none ∨ checkErrors = .yes) (read : datum.elements fuel = some elements)
    (sized : List.Forall₂ (fun e d => size e = some d.sizeTree) elements ds) :
    datumArraySerializedSize fuel size checkErrors false datum =
      some ((containerBytes (ds.map Datum.encode)).length, ds.map Datum.sizeTree) := by
  have counted := arrSize_of_elements read
  have sizes : (ds.map Datum.sizeTree).map SizeTreeNode.size = (ds.map Datum.encode).map List.length := by
    simp [Function.comp_def]
  have inner := @datumArrayInnerSerializedSize_eq datum (ds.map Datum.sizeTree) (ds.map Datum.encode).length
    (by simp [isObject_of_arrSize counted, counted, sized.length_eq])
  unfold datumArraySerializedSize
  split
  · rename_i buf isRef
    exact absurd rfl (checkErrors_ne_no_of_getBufRef rewritten isRef)
  · simp only [Bool.false_eq_true, if_false, read, Layout.mapM_of_forall₂ sized, inner, sizes,
      Option.bind_eq_bind, Option.bind_some]
    rw [length_containerBytes, length_containerInner_eq, Nat.add_comm (varintUint64SerializedSize _)]

/-- The sizes of an object whose keys and values are sized as the pairs of a value. -/
theorem datumArraySerializedSize_object {size : DatumT → Option SizeTreeNode}
    {pairs : List (DatumString × DatumT)} {ps : List (List UInt8 × Datum)}
    (rewritten : datum.getBufRef = none ∨ checkErrors = .yes) (read : datum.pairs fuel = some pairs)
    (sized : List.Forall₂ (fun p q => datumStringSerializedSize p.1 = some (stringBytes q.1).length ∧
      size p.2 = some q.2.sizeTree) pairs ps) :
    datumArraySerializedSize fuel size checkErrors true datum =
      some ((containerBytes (ps.map fun q => stringBytes q.1 ++ q.2.encode)).length, Datum.sizeTreePairs ps) := by
  have counted := objSize_of_pairs read
  have inner := @datumArrayInnerSerializedSize_eq datum (Datum.sizeTreePairs ps)
    (ps.map fun q => stringBytes q.1 ++ q.2.encode).length
    (by simp [isObject_of_objSize counted, counted, sized.length_eq])
  unfold datumArraySerializedSize
  split
  · rename_i buf isRef
    exact absurd rfl (checkErrors_ne_no_of_getBufRef rewritten isRef)
  · simp only [if_true, read, Option.bind_eq_bind, Option.bind_some]
    rw [Layout.mapM_of_forall₂ (g := fun q : List UInt8 × Datum => [⟨(stringBytes q.1).length, []⟩, q.2.sizeTree])
      (show List.Forall₂ _ pairs ps from ?_)]
    · have flat : (ps.map fun q : List UInt8 × Datum => [⟨(stringBytes q.1).length, []⟩, q.2.sizeTree]).flatten =
          Datum.sizeTreePairs ps := by
        rw [Datum.sizeTreePairs_eq_flatMap]
        rfl
      simp only [Option.bind_some, flat, inner, sum_size_sizeTreePairs]
      rw [length_containerBytes, length_containerInner_eq, Nat.add_comm (varintUint64SerializedSize _)]
    · refine List.Forall₂.imp ?_ sized
      rintro ⟨key, value⟩ q ⟨keySize, valueSize⟩
      simp [keySize, valueSize]

/-- An array whose elements are written as the elements of a value is written as the value's
data, with the elements' flags. -/
theorem datumArraySerialize_array
    {write : DatumT → SizeTreeNode → Option (List UInt8 × SerializationResult)}
    {elements : List DatumT} {ds : List Datum} {size : Nat}
    (rewritten : datum.getBufRef = none ∨ checkErrors = .yes) (read : datum.elements fuel = some elements)
    (written : List.Forall₂ (fun e d => write e d.sizeTree = some (d.encode, d.serializationResult)) elements ds)
    (fits : ((ds.map Datum.encode).map List.length).sum < 2 ^ 64) :
    datumArraySerialize fuel write checkErrors false datum ⟨size, ds.map Datum.sizeTree⟩ =
      some (containerBytes (ds.map Datum.encode), Datum.resultList ds) := by
  have counted := arrSize_of_elements read
  have sizes : (ds.map Datum.sizeTree).map SizeTreeNode.size = (ds.map Datum.encode).map List.length := by
    simp [Function.comp_def]
  have inner := @datumArrayInnerSerializedSize_eq datum (ds.map Datum.sizeTree) (ds.map Datum.encode).length
    (by simp [isObject_of_arrSize counted, counted, written.length_eq])
  have table := serializeOffsetTable_eq fits
  rw [List.length_map] at table
  unfold datumArraySerialize
  split
  · rename_i buf isRef
    exact absurd rfl (checkErrors_ne_no_of_getBufRef rewritten isRef)
  · simp only [inner, sizes, isObject_of_arrSize counted, table, Bool.false_eq_true, if_false, read,
      Option.bind_eq_bind, Option.bind_some]
    rw [if_pos (by simp [written.length_eq]),
      Layout.mapM_zip_of_forall₂ (h := Datum.sizeTree) (g := fun d : Datum => (d.encode, d.serializationResult))
        (show List.Forall₂ _ elements ds from written)]
    have firsts : (ds.map fun d => (d.encode, d.serializationResult)).map Prod.fst = ds.map Datum.encode := by
      simp
    rw [Option.bind_some, firsts, List.foldl_map, foldl_or_resultList, SerializationResult.success_or,
      containerBytes_eq]

/-- An object whose keys and values are written as the pairs of a value is written as the
value's data, with the values' flags. -/
theorem datumArraySerialize_object
    {write : DatumT → SizeTreeNode → Option (List UInt8 × SerializationResult)}
    {pairs : List (DatumString × DatumT)} {ps : List (List UInt8 × Datum)} {size : Nat}
    (rewritten : datum.getBufRef = none ∨ checkErrors = .yes) (read : datum.pairs fuel = some pairs)
    (written : List.Forall₂ (fun p q => datumStringSerialize p.1 = some (stringBytes q.1) ∧
      write p.2 q.2.sizeTree = some (q.2.encode, q.2.serializationResult)) pairs ps)
    (fits : ((ps.map fun q => stringBytes q.1 ++ q.2.encode).map List.length).sum < 2 ^ 64) :
    datumArraySerialize fuel write checkErrors true datum ⟨size, Datum.sizeTreePairs ps⟩ =
      some (containerBytes (ps.map fun q => stringBytes q.1 ++ q.2.encode), Datum.resultPairs ps) := by
  have counted := objSize_of_pairs read
  have lengths := written.length_eq
  have inner := @datumArrayInnerSerializedSize_eq datum (Datum.sizeTreePairs ps)
    (ps.map fun q => stringBytes q.1 ++ q.2.encode).length
    (by simp [isObject_of_objSize counted, counted, lengths])
  have table := serializeOffsetTable_eq fits
  rw [List.length_map] at table
  have sizes : pairSizes ((Datum.sizeTreePairs ps).map SizeTreeNode.size) =
      (ps.map fun q => stringBytes q.1 ++ q.2.encode).map List.length := by
    rw [map_size_sizeTreePairs, pairSizes_flatMap, List.map_map]
    simp [Function.comp_def]
  have children : (Datum.sizeTreePairs ps).length = pairs.length * 2 := by
    have two : ∀ q : List UInt8 × Datum, ([⟨(stringBytes q.1).length, []⟩, q.2.sizeTree] : List SizeTreeNode).length = 2 :=
      fun _ => rfl
    rw [Datum.sizeTreePairs_eq_flatMap, Layout.length_flatMap_of_width _ two ps, lengths]
  unfold datumArraySerialize
  split
  · rename_i buf isRef
    exact absurd rfl (checkErrors_ne_no_of_getBufRef rewritten isRef)
  · simp only [inner, sum_size_sizeTreePairs, isObject_of_objSize counted, serializeOffsetTable_object, sizes,
      table, if_true, read, children, Option.bind_eq_bind, Option.bind_some]
    rw [Layout.mapM_zipIdx_eq_some _ pairs (ps.map fun q => (stringBytes q.1 ++ q.2.encode, q.2.serializationResult))
      0 (by simp [lengths]) ?_]
    · have firsts : (ps.map fun q => (stringBytes q.1 ++ q.2.encode, q.2.serializationResult)).map Prod.fst =
          ps.map fun q => stringBytes q.1 ++ q.2.encode := by
        simp
      rw [Option.bind_some, firsts, List.foldl_map, foldl_or_resultPairs, SerializationResult.success_or,
        containerBytes_eq]
    · intro i lt
      have lt' : i < ps.length := lengths ▸ lt
      obtain ⟨key, value⟩ := (List.forall₂_iff_get.mp written).2 i lt lt'
      -- The value of pair `i` is written with the size at `i * 2 + 1`, after its key's.
      have child : (Datum.sizeTreePairs ps)[i * 2 + 1]? = some (ps.get ⟨i, lt'⟩).2.sizeTree := by
        rw [Datum.sizeTreePairs_eq_flatMap, Layout.getElem?_flatMap_pair, List.getElem?_eq_getElem lt']
        rfl
      simp only [Nat.zero_add, key, child, value, Option.bind_some, List.getElem?_map,
        List.getElem?_eq_getElem lt', Option.map_some]
      rfl

end Containers

/-! ## The writer on a value -/

section Writer

variable {fuel : Nat} {checkErrors : CheckDatumSerializationErrors} {datum : DatumT}

/-- The array branch of `datum_serialized_size`. -/
theorem datumSerializedSize_of_arrSize {n : Nat} (counted : datum.arrSize = some n) :
    datumSerializedSize (fuel + 1) checkErrors datum =
      (datumArraySerializedSize fuel (datumSerializedSize fuel checkErrors) checkErrors false datum).bind
        fun sized => some ⟨1 + sized.1, sized.2⟩ := by
  cases datum <;> first | rfl | simp [DatumT.arrSize] at counted

/-- The object branch of `datum_serialized_size`. -/
theorem datumSerializedSize_of_objSize {n : Nat} (counted : datum.objSize = some n) :
    datumSerializedSize (fuel + 1) checkErrors datum =
      (datumArraySerializedSize fuel (datumSerializedSize fuel checkErrors) checkErrors true datum).bind
        fun sized => some ⟨1 + sized.1, sized.2⟩ := by
  cases datum <;> first | rfl | simp [DatumT.objSize] at counted

/-- The array branch of `datum_serialize`, with its check of the element count. -/
theorem datumSerialize_of_arrSize {n : Nat} (counted : datum.arrSize = some n) (tree : SizeTreeNode) :
    datumSerialize (fuel + 1) checkErrors datum tree =
      (datumArraySerialize fuel (datumSerialize fuel checkErrors) checkErrors false datum tree).bind
        fun written => some (serializeDatumType .bufRArray ++ written.1,
          (⟨n > 100000, false⟩ : SerializationResult).or written.2) := by
  cases datum <;> first
    | (simp only [datumSerialize, counted, Option.bind_eq_bind, Option.bind_some]; done)
    | simp [DatumT.arrSize] at counted

/-- The object branch of `datum_serialize`. -/
theorem datumSerialize_of_objSize {n : Nat} (counted : datum.objSize = some n) (tree : SizeTreeNode) :
    datumSerialize (fuel + 1) checkErrors datum tree =
      (datumArraySerialize fuel (datumSerialize fuel checkErrors) checkErrors true datum tree).bind
        fun written => some (serializeDatumType .bufRObject ++ written.1, written.2) := by
  cases datum <;> first | rfl | simp [DatumT.objSize] at counted

/-- What the writer does with a datum that holds the value `d`: the sizes it computes first
are the value's, and it then writes the value's serialization and raises its flags. -/
def Writes (fuel : Nat) (checkErrors : CheckDatumSerializationErrors) (datum : DatumT) (d : Datum) : Prop :=
  datumSerializedSize fuel checkErrors datum = some d.sizeTree ∧
    datumSerialize fuel checkErrors datum d.sizeTree = some (d.encode, d.serializationResult)

theorem writes_num (x : Binary64) : Writes (fuel + 1) checkErrors (.rNum x) (.num x) := by
  constructor
  · cases integer : numberAsInteger x with
    | none => simp [datumSerializedSize, integer, Datum.sizeTree, Datum.encode, numberBytes, serializeDatumType,
        serializeRangedInt8, serializeUniversal]
    | some i =>
      -- The size counts the magnitude of the integer; the writer's sign is the double's.
      simp only [datumSerializedSize, integer]
      rw [magnitude_eq integer]
      cases sign : x.signBit <;>
        simp [Datum.sizeTree, Datum.encode, numberBytes, integer, sign, serializeDatumType, serializeRangedInt8,
          Nat.add_comm]
  · cases integer : numberAsInteger x
    · simp [datumSerialize, integer, Datum.encode, numberBytes, Datum.serializationResult]
    · cases sign : x.signBit <;>
        simp [datumSerialize, integer, sign, Datum.encode, numberBytes, Datum.serializationResult]

/-- A string in a buffer, whatever follows it there. -/
theorem writes_str {s tail : List UInt8} (small : s.length < 2 ^ 64) :
    Writes (fuel + 1) checkErrors (.rStr ⟨stringBytes s ++ tail⟩) (.str s) := by
  constructor
  · simp [datumSerializedSize, datumStringSerializedSize_stringBytes small, Datum.sizeTree, Datum.encode,
      serializeDatumType, serializeRangedInt8, Nat.add_comm]
  · simp [datumSerialize, datumStringSerialize_stringBytes small, Datum.encode, Datum.serializationResult]

theorem writes_binary {s tail : List UInt8} (small : s.length < 2 ^ 64) :
    Writes (fuel + 1) checkErrors (.rBinary ⟨stringBytes s ++ tail⟩) (.binary s) := by
  constructor
  · simp [datumSerializedSize, datumStringSerializedSize_stringBytes small, Datum.sizeTree, Datum.encode,
      serializeDatumType, serializeRangedInt8, Nat.add_comm]
  · simp [datumSerialize, datumStringSerialize_stringBytes small, Datum.encode, Datum.serializationResult]

/-- An array whose elements the writer writes as the elements of a value. -/
theorem writes_array {elements : List DatumT} {ds : List Datum}
    (rewritten : datum.getBufRef = none ∨ checkErrors = .yes) (read : datum.elements fuel = some elements)
    (each : List.Forall₂ (Writes fuel checkErrors) elements ds) (fits : (Datum.array ds).encode.length < 2 ^ 64) :
    Writes (fuel + 1) checkErrors datum (.array ds) := by
  have counted := arrSize_of_elements read
  have parts : ((ds.map Datum.encode).map List.length).sum < 2 ^ 64 := by
    have := sum_le_length_containerBytes (ds.map Datum.encode)
    rw [Datum.length_encode_array] at fits
    omega
  constructor
  · rw [datumSerializedSize_of_arrSize counted,
      datumArraySerializedSize_array rewritten read (each.imp fun _ _ writes => writes.1)]
    simp [Datum.sizeTree, Datum.length_encode_array]
  · rw [datumSerialize_of_arrSize counted, Datum.sizeTree, Datum.sizeTreeList_eq_map,
      datumArraySerialize_array rewritten read (each.imp fun _ _ writes => writes.2) parts]
    simp [Datum.encode, Datum.serializationResult, each.length_eq]

/-- An object whose keys are strings in buffers and whose values the writer writes as the
values of a value. -/
theorem writes_object {pairs : List (DatumString × DatumT)} {ps : List (List UInt8 × Datum)}
    (rewritten : datum.getBufRef = none ∨ checkErrors = .yes) (read : datum.pairs fuel = some pairs)
    (each : List.Forall₂ (fun p q => (∃ tail, p.1 = ⟨stringBytes q.1 ++ tail⟩) ∧ Writes fuel checkErrors p.2 q.2)
      pairs ps)
    (fits : (Datum.object ps).encode.length < 2 ^ 64) :
    Writes (fuel + 1) checkErrors datum (.object ps) := by
  have counted := objSize_of_pairs read
  have parts : ((ps.map fun q => stringBytes q.1 ++ q.2.encode).map List.length).sum < 2 ^ 64 := by
    have := sum_le_length_containerBytes (ps.map fun q => stringBytes q.1 ++ q.2.encode)
    rw [Datum.length_encode_object] at fits
    omega
  -- Every key is shorter than the object, so its size reads back.
  have keyed : List.Forall₂ (fun p q => (∃ tail, p.1 = ⟨stringBytes q.1 ++ tail⟩) ∧ q.1.length < 2 ^ 64 ∧
      Writes fuel checkErrors p.2 q.2) pairs ps := by
    rw [List.forall₂_iff_zip] at each ⊢
    refine ⟨each.1, fun member => ?_⟩
    obtain ⟨key, writes⟩ := each.2 member
    have := Datum.length_lt_of_mem_object (List.of_mem_zip member).2
    refine ⟨key, ?_, writes⟩
    simp only [List.length_append, length_stringBytes] at this
    omega
  constructor
  · rw [datumSerializedSize_of_objSize counted, datumArraySerializedSize_object rewritten read
      (keyed.imp fun _ _ ⟨⟨_, key⟩, small, writes⟩ => ⟨by rw [key]; exact datumStringSerializedSize_stringBytes small,
        writes.1⟩)]
    simp [Datum.sizeTree, Datum.length_encode_object]
  · rw [datumSerialize_of_objSize counted, Datum.sizeTree, datumArraySerialize_object rewritten read
      (keyed.imp fun _ _ ⟨⟨_, key⟩, small, writes⟩ => ⟨by rw [key]; exact datumStringSerialize_stringBytes small,
        writes.2⟩) parts]
    simp [Datum.encode, Datum.serializationResult]

end Writer

/-! ## Values in memory -/

namespace DatumT

/-- The elements of an array in memory are its vector. -/
theorem elements_rArray (fuel : Nat) (elements : List DatumT) : (rArray elements).elements fuel = some elements := by
  simp only [DatumT.elements, arrSize, Option.bind_eq_bind, Option.bind_some]
  refine Layout.mapM_range_eq_some _ elements fun i lt => ?_
  simp [get, arrSize, uncheckedGet, lt]

/-- The pairs of an object in memory are its vector. -/
theorem pairs_rObject (fuel : Nat) (pairs : List (DatumString × DatumT)) : (rObject pairs).pairs fuel = some pairs := by
  simp only [DatumT.pairs, objSize, Option.bind_eq_bind, Option.bind_some]
  refine Layout.mapM_range_eq_some _ pairs fun i lt => ?_
  simp [getPair, objSize, uncheckedGetPair, lt]

end DatumT

/-- The writer on a value in memory: whether errors are checked or not, `datum_serialized_size`
computes the value's sizes and `datum_serialize` then writes its serialization and raises its
flags, given fuel beyond the value's depth and a serialization shorter than `2 ^ 64`. -/
theorem writes_toDatumT (checkErrors : CheckDatumSerializationErrors) :
    ∀ (d : Datum) (fuel : Nat), d.encode.length < 2 ^ 64 → d.depth ≤ fuel →
      Writes (fuel + 1) checkErrors d.toDatumT d := by
  intro d
  induction d using Datum.induction with
  | minval | maxval | null => exact fun _ _ _ => ⟨rfl, rfl⟩
  | bool b => exact fun _ _ _ => ⟨rfl, rfl⟩
  | num x => exact fun _ _ _ => writes_num x
  | str s =>
    intro fuel fits _
    rw [Datum.toDatumT, DatumString.init_eq]
    exact writes_str (Nat.lt_trans (Datum.length_lt_length_encode_str s) fits)
  | binary s =>
    intro fuel fits _
    rw [Datum.toDatumT, DatumString.init_eq]
    exact writes_binary (Nat.lt_trans (Datum.length_lt_length_encode_binary s) fits)
  | array ds ih =>
    intro fuel fits deep
    obtain ⟨fuel, rfl⟩ : ∃ inner, fuel = inner + 1 := ⟨fuel - 1, by simp [Datum.depth] at deep; omega⟩
    rw [Datum.toDatumT, Datum.toDatumTList_eq_map]
    refine writes_array (.inl rfl) (DatumT.elements_rArray _ _) ?_ fits
    -- Every element is shorter than the array and nests less deeply.
    rw [List.forall₂_map_left_iff, List.forall₂_same]
    intro d member
    have shallower := Datum.depth_lt_of_mem_array member
    exact ih d member fuel (Nat.lt_trans (Datum.length_lt_of_mem_array member) fits) (by omega)
  | object ps ih =>
    intro fuel fits deep
    obtain ⟨fuel, rfl⟩ : ∃ inner, fuel = inner + 1 := ⟨fuel - 1, by simp [Datum.depth] at deep; omega⟩
    rw [Datum.toDatumT, Datum.toDatumTPairs_eq_map]
    refine writes_object (.inl rfl) (DatumT.pairs_rObject _ _) ?_ fits
    rw [List.forall₂_map_left_iff, List.forall₂_same]
    intro p member
    have shallower := Datum.depth_lt_of_mem_object member
    have shorter := Datum.length_lt_of_mem_object member
    simp only [List.length_append] at shorter
    exact ⟨⟨[], DatumString.init_eq p.1⟩, ih p member fuel (by omega) (by omega)⟩

end Ql
end RethinkDB
