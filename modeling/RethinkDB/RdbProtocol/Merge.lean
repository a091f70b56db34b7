import RethinkDB.RdbProtocol.Compare

/-!
# Merging objects and `r.literal`

`datum_t::merge` of `rdb_protocol/datum.cc` merges the right-hand object into the left-hand
one field by field: where both sides hold objects and the right-hand value is no literal it
merges them again, otherwise the field takes the value of the literal, or the right-hand
value, with its literals dropped by `drop_literals`, and a literal without a value deletes
the field.  The merge term, `update` and `insert` with `conflict: "update"` all call it.

Objects are built with `datum_object_builder_t`, whose `std::map` is modelled as its pairs in
key order, ordered by `datum_string_t::compare`; `to_datum` ends in `maybe_sanitize_ptype`,
whose work on pseudotype objects (times, geometry, binary, the stray-literal check) is the
parameter `sanitize` here.  The recursive call of `drop_literals` on a literal's value is
on the field the binary search of `get_field` finds, reached by walking the pairs to its
index, as in `Compare`, so that every function is structurally recursive.

For a plain left-hand object and a right-hand one whose literals are field values,
`merge_fields` says what every field of the result is (`MergedField`).  The first guard of
`merge` returns the right-hand side as it is when either side is no object.  So a
right-hand object under a field whose left-hand value is a number keeps its literals
(`merge_keeps_object_below_non_object`, `merge_keeps_literal_below_number`), while under a
missing field they are dropped.
-/

namespace RethinkDB
namespace Ql

/-- `pseudo::literal_string`. -/
def literalString : List UInt8 := ascii "LITERAL"

/-- `pseudo::value_key`. -/
def valueKey : List UInt8 := ascii "value"

/-- `datum_t::is_ptype(const std::string &reql_type)`. -/
def Datum.isPtypeOf (d : Datum) (reqlType : List UInt8) : Except Error Bool :=
  if reqlType = [] then pure d.isPtype
  else if d.isPtype then do
    let found ← d.getReqlType
    return found == reqlType
  else pure false

/-! ## The object builder -/

/-- `check_str_validity`: no NUL byte. -/
def checkStrValidity (str : List UInt8) : Except Error Unit :=
  if 0 ∈ str then throw (.nullByte str) else pure ()

/-- `map.insert(pair)` on the pairs of a `std::map` in key order: nothing changes where the
key is present; the flag says whether the pair went in. -/
def mapInsert (key : List UInt8) (val : Datum) :
    List (List UInt8 × Datum) → List (List UInt8 × Datum) × Bool
  | [] => ([(key, val)], true)
  | (k, v) :: rest =>
      if datumStringCompare key k < 0 then ((key, val) :: (k, v) :: rest, true)
      else if datumStringCompare key k = 0 then ((k, v) :: rest, false)
      else ((k, v) :: (mapInsert key val rest).1, (mapInsert key val rest).2)

/-- `map[key] = val`. -/
def mapAssign (key : List UInt8) (val : Datum) :
    List (List UInt8 × Datum) → List (List UInt8 × Datum)
  | [] => [(key, val)]
  | (k, v) :: rest =>
      if datumStringCompare key k < 0 then (key, val) :: (k, v) :: rest
      else if datumStringCompare key k = 0 then (k, val) :: rest
      else (k, v) :: mapAssign key val rest

/-- `map.erase(key)`. -/
def mapErase (key : List UInt8) : List (List UInt8 × Datum) → List (List UInt8 × Datum)
  | [] => []
  | (k, v) :: rest => if datumStringCompare key k = 0 then rest else (k, v) :: mapErase key rest

/-- `map.find(key)`. -/
def mapFind (key : List UInt8) (map : List (List UInt8 × Datum)) : Option Datum :=
  (map.find? fun pair => datumStringCompare key pair.1 == 0).map Prod.snd

/-- `datum_object_builder_t`: its `map`. -/
structure ObjectBuilder where
  map : List (List UInt8 × Datum)

namespace ObjectBuilder

/-- `datum_object_builder_t(const datum_t &copy_from)` of an object: `map.insert` of every
pair. -/
def ofPairs (pairs : List (List UInt8 × Datum)) : ObjectBuilder :=
  ⟨pairs.foldl (fun map pair => (mapInsert pair.1 pair.2 map).1) []⟩

/-- `add(key, val)`: `true` where the key was already there.  `r_sanity_check(val.has())`
holds of every value of the model. -/
def add (builder : ObjectBuilder) (key : List UInt8) (val : Datum) :
    Except Error (Bool × ObjectBuilder) := do
  checkStrValidity key
  return (!(mapInsert key val builder.map).2, ⟨(mapInsert key val builder.map).1⟩)

/-- `add` under `r_sanity_check(!conflict)`. -/
def addFresh (builder : ObjectBuilder) (key : List UInt8) (val : Datum) :
    Except Error ObjectBuilder := do
  let (conflict, builder) ← builder.add key val
  if conflict then throw .sanityCheck
  return builder

/-- `overwrite(key, val)`. -/
def overwrite (builder : ObjectBuilder) (key : List UInt8) (val : Datum) :
    Except Error ObjectBuilder := do
  checkStrValidity key
  return ⟨mapAssign key val builder.map⟩

/-- `delete_field(key)`: whether the key was there. -/
def deleteField (builder : ObjectBuilder) (key : List UInt8) : Bool × ObjectBuilder :=
  ((mapFind key builder.map).isSome, ⟨mapErase key builder.map⟩)

/-- `try_get(key)`. -/
def tryGet (builder : ObjectBuilder) (key : List UInt8) : Option Datum :=
  mapFind key builder.map

/-- `to_datum()`: the object of the pairs, through `maybe_sanitize_ptype` with no permitted
pseudotypes, whose work on a pseudotype object is `sanitize`. -/
def toDatum (sanitize : Datum → Except Error Datum) (builder : ObjectBuilder) :
    Except Error Datum :=
  if (Datum.object builder.map).isPtype then sanitize (.object builder.map)
  else pure (.object builder.map)

end ObjectBuilder

/-! ## Maps in key order

The pairs of a `std::map` are in increasing key order (`SortedKeys`); there `find` is the
binary search of `get_field` (`mapFind_eq_fieldOf`), `operator[]` and `erase` change only
their key, and `insert` of a key above all others appends it. -/

section Maps

variable {key key' k : List UInt8} {val v : Datum}

/-! ### One pair at a time -/

theorem not_compare_neg_of_lt (above : k < key) : ¬datumStringCompare key k < 0 := fun below =>
  List.lt_irrefl k (List.lt_trans above (datumStringCompare_neg_iff.mp below))

theorem compare_ne_zero_of_lt (above : k < key) : datumStringCompare key k ≠ 0 := fun same =>
  Bytes.ne_of_lt above (datumStringCompare_eq_zero_iff.mp same).symm

theorem mapFind_cons (rest : List (List UInt8 × Datum)) :
    mapFind key ((k, v) :: rest) = if key = k then some v else mapFind key rest := by
  unfold mapFind
  by_cases same : key = k
  · simp [same, datumStringCompare_eq_zero_iff]
  · simp [same, datumStringCompare_eq_zero_iff]

theorem mapAssign_cons_of_lt (below : key < k) (rest : List (List UInt8 × Datum)) :
    mapAssign key val ((k, v) :: rest) = (key, val) :: (k, v) :: rest := by
  simp [mapAssign, datumStringCompare_neg_iff.mpr below]

theorem mapAssign_cons_self (rest : List (List UInt8 × Datum)) :
    mapAssign k val ((k, v) :: rest) = (k, val) :: rest := by
  simp [mapAssign, datumStringCompare_eq_zero_iff.mpr (rfl : k = k)]

theorem mapAssign_cons_of_gt (above : k < key) (rest : List (List UInt8 × Datum)) :
    mapAssign key val ((k, v) :: rest) = (k, v) :: mapAssign key val rest := by
  simp [mapAssign, not_compare_neg_of_lt above, compare_ne_zero_of_lt above]

theorem mapInsert_cons_of_lt (below : key < k) (rest : List (List UInt8 × Datum)) :
    mapInsert key val ((k, v) :: rest) = ((key, val) :: (k, v) :: rest, true) := by
  simp [mapInsert, datumStringCompare_neg_iff.mpr below]

theorem mapInsert_cons_of_gt (above : k < key) (rest : List (List UInt8 × Datum)) :
    mapInsert key val ((k, v) :: rest) =
      ((k, v) :: (mapInsert key val rest).1, (mapInsert key val rest).2) := by
  simp [mapInsert, not_compare_neg_of_lt above, compare_ne_zero_of_lt above]

theorem mapErase_cons_self (rest : List (List UInt8 × Datum)) :
    mapErase k ((k, v) :: rest) = rest := by
  simp [mapErase, datumStringCompare_eq_zero_iff.mpr (rfl : k = k)]

theorem mapErase_cons_of_ne (differ : key ≠ k) (rest : List (List UInt8 × Datum)) :
    mapErase key ((k, v) :: rest) = (k, v) :: mapErase key rest := by
  have notSame : ¬datumStringCompare key k = 0 := fun same =>
    differ (datumStringCompare_eq_zero_iff.mp same)
  simp [mapErase, notSame]

/-! ### Finding -/

theorem mapFind_eq_none_iff {map : List (List UInt8 × Datum)} :
    mapFind key map = none ↔ ∀ v, (key, v) ∉ map := by
  induction map with
  | nil => simp [mapFind]
  | cons pair rest ih =>
      obtain ⟨k, v⟩ := pair
      rw [mapFind_cons]
      by_cases same : key = k
      · subst same
        rw [if_pos rfl]
        constructor
        · intro found
          cases found
        · intro absent
          exact absurd (List.mem_cons_self ..) (absent v)
      · rw [if_neg same, ih]
        simp [same]

theorem mem_of_mapFind_eq_some {map : List (List UInt8 × Datum)}
    (found : mapFind key map = some val) : (key, val) ∈ map := by
  induction map with
  | nil => simp [mapFind] at found
  | cons pair rest ih =>
      obtain ⟨k, v⟩ := pair
      rw [mapFind_cons] at found
      split at found
      · rename_i same
        subst same
        cases found
        exact List.mem_cons_self ..
      · exact List.mem_cons_of_mem _ (ih found)

/-- A key below every key of a map is not in it. -/
theorem mapFind_eq_none_of_lt {map : List (List UInt8 × Datum)} (below : ∀ p ∈ map, key < p.1) :
    mapFind key map = none := by
  rw [mapFind_eq_none_iff]
  intro v member
  exact List.lt_irrefl key (below (key, v) member)

/-- **In key order, `find` is the binary search of `get_field`.** -/
theorem mapFind_eq_fieldOf {map : List (List UInt8 × Datum)} (sorted : SortedKeys map) :
    mapFind key map = fieldOf map key := by
  cases found : fieldOf map key with
  | none =>
      rw [mapFind_eq_none_iff]
      exact (fieldOf_eq_none_iff sorted).mp found
  | some v =>
      cases found' : mapFind key map with
      | none =>
          exact absurd ((fieldOf_eq_some_iff sorted).mp found)
            (mapFind_eq_none_iff.mp found' v)
      | some v' =>
          have also := (fieldOf_eq_some_iff sorted).mpr (mem_of_mapFind_eq_some found')
          rw [found] at also
          exact congrArg some (Option.some.inj also).symm

/-! ### Assigning and erasing -/

theorem mapFind_mapAssign (map : List (List UInt8 × Datum)) :
    mapFind key' (mapAssign key val map) = if key' = key then some val else mapFind key' map := by
  induction map with
  | nil => rw [mapAssign, mapFind_cons]
  | cons pair rest ih =>
      obtain ⟨k, v⟩ := pair
      -- The new key goes before `k`, replaces it, or goes further.
      rcases Bytes.lt_trichotomy key k with below | rfl | above
      · rw [mapAssign_cons_of_lt below, mapFind_cons]
      · rw [mapAssign_cons_self, mapFind_cons, mapFind_cons]
        split <;> rfl
      · rw [mapAssign_cons_of_gt above, mapFind_cons, ih, mapFind_cons]
        by_cases atK : key' = k
        · subst atK
          simp [Bytes.ne_of_lt above]
        · simp [atK]

theorem keys_mapAssign (map : List (List UInt8 × Datum)) :
    ∀ p ∈ mapAssign key val map, p.1 = key ∨ ∃ q ∈ map, p.1 = q.1 := by
  induction map with
  | nil => simp [mapAssign]
  | cons pair rest ih =>
      obtain ⟨k, v⟩ := pair
      intro p member
      rcases Bytes.lt_trichotomy key k with below | rfl | above
      · rw [mapAssign_cons_of_lt below] at member
        rcases List.mem_cons.mp member with rfl | member
        · exact Or.inl rfl
        · exact Or.inr ⟨p, member, rfl⟩
      · rw [mapAssign_cons_self] at member
        rcases List.mem_cons.mp member with rfl | member
        · exact Or.inl rfl
        · exact Or.inr ⟨p, List.mem_cons_of_mem _ member, rfl⟩
      · rw [mapAssign_cons_of_gt above] at member
        rcases List.mem_cons.mp member with same | member
        · exact Or.inr ⟨(k, v), List.mem_cons_self .., by rw [same]⟩
        · rcases ih p member with same | ⟨q, memberQ, same⟩
          · exact Or.inl same
          · exact Or.inr ⟨q, List.mem_cons_of_mem _ memberQ, same⟩

theorem sortedKeys_mapAssign {map : List (List UInt8 × Datum)} (sorted : SortedKeys map) :
    SortedKeys (mapAssign key val map) := by
  induction map with
  | nil => simp [mapAssign, SortedKeys]
  | cons pair rest ih =>
      obtain ⟨k, v⟩ := pair
      unfold SortedKeys at sorted ih ⊢
      rw [List.pairwise_cons] at sorted
      rcases Bytes.lt_trichotomy key k with below | rfl | above
      · rw [mapAssign_cons_of_lt below]
        refine List.pairwise_cons.mpr ⟨?_, List.pairwise_cons.mpr sorted⟩
        intro p member
        rcases List.mem_cons.mp member with rfl | member
        · exact below
        · exact List.lt_trans below (sorted.1 p member)
      · rw [mapAssign_cons_self]
        exact List.pairwise_cons.mpr sorted
      · rw [mapAssign_cons_of_gt above]
        refine List.pairwise_cons.mpr ⟨?_, ih sorted.2⟩
        intro p member
        rcases keys_mapAssign rest p member with same | ⟨q, memberQ, same⟩
        · exact same ▸ above
        · exact same ▸ sorted.1 q memberQ

theorem mapErase_sublist (map : List (List UInt8 × Datum)) : (mapErase key map).Sublist map := by
  induction map with
  | nil => exact List.Sublist.slnil
  | cons pair rest ih =>
      obtain ⟨k, v⟩ := pair
      by_cases same : key = k
      · subst same
        rw [mapErase_cons_self]
        exact List.sublist_cons_self _ _
      · rw [mapErase_cons_of_ne same]
        exact ih.cons_cons _

theorem sortedKeys_mapErase {map : List (List UInt8 × Datum)} (sorted : SortedKeys map) :
    SortedKeys (mapErase key map) :=
  List.Pairwise.sublist (mapErase_sublist map) sorted

theorem mapFind_mapErase {map : List (List UInt8 × Datum)} (sorted : SortedKeys map) :
    mapFind key' (mapErase key map) = if key' = key then none else mapFind key' map := by
  induction map with
  | nil => simp [mapErase, mapFind]
  | cons pair rest ih =>
      obtain ⟨k, v⟩ := pair
      unfold SortedKeys at sorted ih
      rw [List.pairwise_cons] at sorted
      by_cases same : key = k
      · -- `key` is `k`, and no later pair has it.
        subst same
        rw [mapErase_cons_self, mapFind_cons]
        by_cases atKey : key' = key
        · subst atKey
          rw [if_pos rfl]
          exact mapFind_eq_none_of_lt sorted.1
        · rw [if_neg atKey, if_neg atKey]
      · rw [mapErase_cons_of_ne same, mapFind_cons, mapFind_cons, ih sorted.2]
        by_cases atKey : key' = key
        · subst atKey
          simp [same]
        · simp [atKey]

/-! ### Inserting -/

/-- `insert` of a key that is not there is `operator[]`. -/
theorem mapInsert_of_absent {map : List (List UInt8 × Datum)} (absent : mapFind key map = none) :
    mapInsert key val map = (mapAssign key val map, true) := by
  induction map with
  | nil => rfl
  | cons pair rest ih =>
      obtain ⟨k, v⟩ := pair
      rw [mapFind_cons] at absent
      rcases Bytes.lt_trichotomy key k with below | rfl | above
      · rw [mapInsert_cons_of_lt below, mapAssign_cons_of_lt below]
      · rw [if_pos rfl] at absent
        cases absent
      · rw [if_neg (Bytes.ne_of_lt above).symm] at absent
        rw [mapInsert_cons_of_gt above, mapAssign_cons_of_gt above, ih absent]

/-- A key above every key of a map goes at its end. -/
theorem mapAssign_of_lt {map : List (List UInt8 × Datum)} (above : ∀ p ∈ map, p.1 < key) :
    mapAssign key val map = map ++ [(key, val)] := by
  induction map with
  | nil => rfl
  | cons pair rest ih =>
      obtain ⟨k, v⟩ := pair
      rw [mapAssign_cons_of_gt (above (k, v) (List.mem_cons_self ..)), List.cons_append,
        ih fun p member => above p (List.mem_cons_of_mem _ member)]

theorem mapInsert_of_lt {map : List (List UInt8 × Datum)} (above : ∀ p ∈ map, p.1 < key) :
    mapInsert key val map = (map ++ [(key, val)], true) := by
  have absent : mapFind key map = none := by
    rw [mapFind_eq_none_iff]
    intro v member
    exact List.lt_irrefl key (above (key, v) member)
  rw [mapInsert_of_absent absent, mapAssign_of_lt above]

/-- Copying a map in key order gives it back. -/
theorem ofPairs_map {pairs : List (List UInt8 × Datum)} (sorted : SortedKeys pairs) :
    (ObjectBuilder.ofPairs pairs).map = pairs := by
  -- Every pair is above the ones inserted before it.
  suffices copy : ∀ (rest acc : List (List UInt8 × Datum)), SortedKeys (acc ++ rest) →
      rest.foldl (fun map pair => (mapInsert pair.1 pair.2 map).1) acc = acc ++ rest from
    copy pairs [] sorted
  intro rest
  induction rest with
  | nil => simp
  | cons pair rest ih =>
      intro acc sortedAll
      have above : ∀ p ∈ acc, p.1 < pair.1 := fun p member =>
        (List.pairwise_append.mp sortedAll).2.2 p member pair (List.mem_cons_self ..)
      rw [List.foldl_cons, mapInsert_of_lt above, ih (acc ++ [pair]) (by simpa using sortedAll)]
      simp

end Maps

/-! ## Dropping literals -/

section DropLiterals

variable (sanitize : Datum → Except Error Datum)

mutual

/-- `datum_t::drop_literals`: the datum without its literals, `none` for a literal without a
value, and `encountered_literal_out`.  A non-object is never a literal; were it one,
`get_field` would fail its type check. -/
def dropLiterals : Datum → Except Error (Option Datum × Bool)
  | .object pairs => do
      let isLiteral ← (Datum.object pairs).isPtypeOf literalString
      if isLiteral then
        let val ← match fieldIndex pairs valueKey with
          | some index => dropLiteralsField pairs index
          | none => pure none
        match val with
        | some (val, encounteredLiteral) =>
            -- Nested literals should have been caught on the higher QL levels.
            if encounteredLiteral then throw .sanityCheck
            return (val, true)
        | none => return (none, true)
      else
        let (needToCopy, builder) ← dropLiteralsPairs [] pairs (false, ⟨[]⟩)
        let copiedResult ← builder.toDatum sanitize
        if needToCopy then return (some copiedResult, true)
        else return (some (.object pairs), false)
  | .array elements => do
      let isLiteral ← (Datum.array elements).isPtypeOf literalString
      if isLiteral then throw (.expectedType .rObject (.array elements))
      let (needToCopy, builder) ← dropLiteralsElements [] elements (false, [])
      if needToCopy then return (some (.array builder), true)
      else return (some (.array elements), false)
  | d => do
      let isLiteral ← d.isPtypeOf literalString
      if isLiteral then throw (.expectedType .rObject d)
      return (some d, false)

/-- `drop_literals` of the value at `index` among `pairs`; `none` past the end, where
`get_field` finds nothing. -/
def dropLiteralsField :
    List (List UInt8 × Datum) → Nat → Except Error (Option (Option Datum × Bool))
  | (_, value) :: _, 0 => do
      let result ← dropLiterals value
      return some result
  | _ :: pairs, index + 1 => dropLiteralsField pairs index
  | [], _ => pure none

/-- The loop of `drop_literals` over the pairs of an object, with the pairs `done` before the
current one: the first field with a literal sets `need_to_copy` and copies `done` into the
builder, and from then on every value that is left goes in. -/
def dropLiteralsPairs (done : List (List UInt8 × Datum)) :
    List (List UInt8 × Datum) → Bool × ObjectBuilder → Except Error (Bool × ObjectBuilder)
  | [], state => pure state
  | (key, value) :: rest, (needToCopy, builder) => do
      let (val, encounteredLiteral) ← dropLiterals value
      let (needToCopy, builder) ←
        if encounteredLiteral && !needToCopy then do
          let builder ← done.foldlM (fun builder pair => builder.addFresh pair.1 pair.2) builder
          pure (true, builder)
        else pure (needToCopy, builder)
      let builder ← match needToCopy, val with
        | true, some val => builder.addFresh key val
        | _, _ => pure builder
      dropLiteralsPairs (done ++ [(key, value)]) rest (needToCopy, builder)

/-- The loop of `drop_literals` over the elements of an array.  The builder has no size
limit here, so `add` cannot fail. -/
def dropLiteralsElements (done : List Datum) :
    List Datum → Bool × List Datum → Except Error (Bool × List Datum)
  | [], state => pure state
  | element :: rest, (needToCopy, builder) => do
      let (val, encounteredLiteral) ← dropLiterals element
      let (needToCopy, builder) :=
        if encounteredLiteral && !needToCopy then (true, builder ++ done)
        else (needToCopy, builder)
      let builder := if needToCopy then builder ++ val.toList else builder
      dropLiteralsElements (done ++ [element]) rest (needToCopy, builder)

end

end DropLiterals

/-! ## Merging -/

section Merge

variable (sanitize : Datum → Except Error Datum)

/-- The second branch of the loop of `merge`: the literal's value or the right-hand value,
with its literals dropped; a literal without a value deletes the field. -/
def replaceField (d : ObjectBuilder) (key : List UInt8) (value : Datum) (isLiteral : Bool) :
    Except Error ObjectBuilder := do
  let val ← if isLiteral then value.getField valueKey .noThrow else pure (some value)
  let val ← match val with
    | some val => do
        -- Since nested literal keywords are forbidden, a no-op if `is_literal`.
        let (val, encounteredLiteral) ← dropLiterals sanitize val
        if encounteredLiteral && isLiteral then throw .sanityCheck
        pure val
    | none => pure none
  match val with
  | some val => d.overwrite key val
  | none => do
      if !isLiteral then throw .sanityCheck
      return (d.deleteField key).2

mutual

/-- `datum_t::merge(const datum_t &rhs)`. -/
def merge : Datum → Datum → Except Error Datum
  | .object lhsPairs, .object rhsPairs => do
      let d ← mergePairs rhsPairs (ObjectBuilder.ofPairs lhsPairs)
      d.toDatum sanitize
  | _, rhs => pure rhs

/-- The loop of `merge` over the pairs of the right-hand object. -/
def mergePairs : List (List UInt8 × Datum) → ObjectBuilder → Except Error ObjectBuilder
  | [], d => pure d
  | (key, value) :: rest, d => do
      let isLiteral ← value.isPtypeOf literalString
      let d ← match d.tryGet key, value.getType == .rObject && !isLiteral with
        | some subLhs, true => do
            let merged ← merge subLhs value
            d.overwrite key merged
        | _, _ => replaceField sanitize d key value isLiteral
      mergePairs rest d

end

/-- `merge_term_t::obj_eval` with datum arguments: from `v1_16` on an object argument must
be a plain object or a literal. -/
def mergeTerm (version : ReqlVersion) (d : Datum) (args : List Datum) : Except Error Datum :=
  args.foldlM (fun d d0 => do
      if d0.getType = .rObject then
        match version with
        | .v1_13 | .v1_14 => pure ()
        | .v1_16 | .v2_0 | .v2_1 => do
            let mergeable ← if d0.isPtype then d0.isPtypeOf (ascii "LITERAL") else pure true
            if !mergeable then throw (.cannotMerge (← d0.getTypeName .no))
      merge sanitize d d0) d

/-- `conflict_behavior_t`. -/
inductive ConflictBehavior where
  | error
  | replace
  | update
  deriving DecidableEq, Repr

/-- `resolve_insert_conflict`. -/
def resolveInsertConflict (primaryKey : List UInt8) (oldRow insertRow : Datum)
    (conflictBehavior : ConflictBehavior) : Except Error Datum :=
  if oldRow.getType = .rNull then pure insertRow
  else match conflictBehavior with
    | .replace => pure insertRow
    | .update => merge sanitize oldRow insertRow
    | .error => throw (.duplicatePrimaryKey primaryKey oldRow insertRow)

end Merge

/-! ## Operands

What the right-hand side of a merge may hold: plain datums, whose objects are in key order
with valid keys and have no `$reql_type$`, and in the right-hand side also literals as the
values of fields, holding plain values.  `resolveLiterals` is what dropping the literals
should give: the literal's value in its place, or no field for a literal without one. -/

/-- `r.literal(v)` and `r.literal()` as the query builds them, in key order. -/
def literal (value : Option Datum) : Datum :=
  .object ((reqlTypeString, .str literalString) :: value.toList.map fun v => (valueKey, v))

/-- The value of a literal, `some none` for `r.literal()`; `none` for a datum that is no
literal. -/
def literalValue : Datum → Option (Option Datum)
  | .object [(k, .str t)] => if k = reqlTypeString ∧ t = literalString then some none else none
  | .object [(k, .str t), (k', v)] =>
      if k = reqlTypeString ∧ t = literalString ∧ k' = valueKey then some (some v) else none
  | _ => none

/-- A key of a plain object: not `$reql_type$` and without NUL. -/
def plainKey (key : List UInt8) : Bool := key != reqlTypeString && decide ((0 : UInt8) ∉ key)

mutual

/-- A datum with no pseudotype object, every object in key order with plain keys. -/
def Datum.plain : Datum → Bool
  | .object pairs => decide (SortedKeys pairs) && plainPairs pairs
  | .array elements => plainElements elements
  | _ => true

def plainPairs : List (List UInt8 × Datum) → Bool
  | [] => true
  | (key, value) :: rest => plainKey key && value.plain && plainPairs rest

def plainElements : List Datum → Bool
  | [] => true
  | element :: rest => element.plain && plainElements rest

end

mutual

/-- A plain datum whose objects may also hold literals of plain values as field values. -/
def Datum.withLiterals : Datum → Bool
  | .object pairs => decide (SortedKeys pairs) && withLiteralsPairs pairs
  | .array elements => withLiteralsElements elements
  | _ => true

def withLiteralsPairs : List (List UInt8 × Datum) → Bool
  | [] => true
  | (key, value) :: rest =>
      plainKey key &&
        (match literalValue value with
          | some none => true
          | some (some v) => v.plain
          | none => value.withLiterals) &&
        withLiteralsPairs rest

def withLiteralsElements : List Datum → Bool
  | [] => true
  | element :: rest => element.withLiterals && withLiteralsElements rest

end

mutual

/-- Each literal field replaced by the literal's value, or left out for `r.literal()`. -/
def Datum.resolveLiterals : Datum → Datum
  | .object pairs => .object (resolvePairs pairs)
  | .array elements => .array (resolveElements elements)
  | d => d

def resolvePairs : List (List UInt8 × Datum) → List (List UInt8 × Datum)
  | [] => []
  | (key, value) :: rest =>
      match literalValue value with
      | some none => resolvePairs rest
      | some (some v) => (key, v) :: resolvePairs rest
      | none => (key, value.resolveLiterals) :: resolvePairs rest

def resolveElements : List Datum → List Datum
  | [] => []
  | element :: rest => element.resolveLiterals :: resolveElements rest

end

mutual

/-- Some object at some depth is a literal: its `$reql_type$` is `"LITERAL"`. -/
def Datum.containsLiteral : Datum → Bool
  | .object pairs =>
      fieldOf pairs reqlTypeString == some (.str literalString) || containsLiteralPairs pairs
  | .array elements => containsLiteralElements elements
  | _ => false

def containsLiteralPairs : List (List UInt8 × Datum) → Bool
  | [] => false
  | (_, value) :: rest => value.containsLiteral || containsLiteralPairs rest

def containsLiteralElements : List Datum → Bool
  | [] => false
  | element :: rest => element.containsLiteral || containsLiteralElements rest

end

/-! ## What the operands look like -/

section Shapes

theorem plainPairs_iff {pairs : List (List UInt8 × Datum)} :
    plainPairs pairs = true ↔ ∀ p ∈ pairs, plainKey p.1 = true ∧ p.2.plain = true := by
  induction pairs with
  | nil => simp [plainPairs]
  | cons pair rest ih =>
      obtain ⟨key, value⟩ := pair
      simp [plainPairs, ih, and_assoc]

/-- An object with plain keys has no `$reql_type$`, so it is no pseudotype. -/
theorem fieldOf_reqlType_of_plainKeys {pairs : List (List UInt8 × Datum)}
    (sorted : SortedKeys pairs) (keys : ∀ p ∈ pairs, plainKey p.1 = true) :
    fieldOf pairs reqlTypeString = none := by
  rw [fieldOf_eq_none_iff sorted]
  intro v member
  have key := keys _ member
  simp [plainKey] at key

theorem fieldOf_reqlType_of_plainPairs {pairs : List (List UInt8 × Datum)}
    (sorted : SortedKeys pairs) (plain : plainPairs pairs = true) :
    fieldOf pairs reqlTypeString = none :=
  fieldOf_reqlType_of_plainKeys sorted fun p member => ((plainPairs_iff.mp plain) p member).1

theorem notMem_of_plainKey {key : List UInt8} (plain : plainKey key = true) :
    (0 : UInt8) ∉ key := by
  simp only [plainKey, Bool.and_eq_true, decide_eq_true_eq] at plain
  exact plain.2

theorem isPtypeOf_literal_of_absent {pairs : List (List UInt8 × Datum)}
    (absent : fieldOf pairs reqlTypeString = none) :
    (Datum.object pairs).isPtypeOf literalString = .ok false := by
  simp only [Datum.isPtypeOf, Datum.isPtype, absent, Option.isSome_none]
  rfl

/-- No datum but an object is a literal: binary values have the type `BINARY`. -/
theorem isPtypeOf_literal_of_not_object {d : Datum} (notObject : ∀ pairs, d ≠ .object pairs) :
    d.isPtypeOf literalString = .ok false := by
  cases d with
  | object pairs => exact absurd rfl (notObject pairs)
  | binary data => rfl
  | _ => rfl

theorem containsLiteral_of_plain_pairs {pairs : List (List UInt8 × Datum)}
    (plain : ∀ p ∈ pairs, p.2.containsLiteral = false) : containsLiteralPairs pairs = false := by
  induction pairs with
  | nil => rfl
  | cons pair rest ih =>
      rw [containsLiteralPairs, plain pair (List.mem_cons_self ..),
        ih fun p member => plain p (List.mem_cons_of_mem _ member)]
      rfl

theorem isPtypeOf_literal_of_fieldOf {pairs : List (List UInt8 × Datum)} {t : List UInt8}
    (found : fieldOf pairs reqlTypeString = some (.str t)) :
    (Datum.object pairs).isPtypeOf literalString = .ok (t == literalString) := by
  simp only [Datum.isPtypeOf, Datum.isPtype, found, Option.isSome_some, if_true]
  simp only [Datum.getReqlType, Datum.isPtype, found, Option.isSome_some, if_true]
  rfl

/-! ### Literals -/

theorem sortedKeys_literalPairs (v : Datum) :
    SortedKeys [(reqlTypeString, .str literalString), (valueKey, v)] := by
  have below : reqlTypeString < valueKey := by decide
  simp [SortedKeys, below]

theorem fieldIndex_literal_value (v : Datum) :
    fieldIndex [(reqlTypeString, .str literalString), (valueKey, v)] valueKey = some 1 :=
  (BinarySearch.find_eq_some_iff
      (sortedKeys_probe_ordered (sortedKeys_literalPairs v) valueKey)).mpr
    ⟨(valueKey, v), rfl, datumStringCompare_eq_zero_iff.mpr rfl⟩

theorem fieldOf_literal_reqlType (value : Option Datum) :
    fieldOf ((reqlTypeString, .str literalString) :: value.toList.map fun v => (valueKey, v))
      reqlTypeString = some (.str literalString) := by
  cases value with
  | none => rfl
  | some v => exact (fieldOf_eq_some_iff (sortedKeys_literalPairs v)).mpr (List.mem_cons_self ..)

theorem eq_literal_of_literalValue {d : Datum} {x : Option Datum}
    (found : literalValue d = some x) : d = literal x := by
  unfold literalValue at found
  split at found
  · split at found
    · rename_i k t same
      obtain ⟨rfl, rfl⟩ := same
      cases found
      rfl
    · cases found
  · split at found
    · rename_i k t k' v same
      obtain ⟨rfl, rfl, rfl⟩ := same
      cases found
      rfl
    · cases found
  · cases found

theorem literalValue_literal (x : Option Datum) : literalValue (literal x) = some x := by
  cases x <;> simp [literal, literalValue]

theorem containsLiteral_literal (x : Option Datum) : (literal x).containsLiteral = true := by
  rw [literal, Datum.containsLiteral, fieldOf_literal_reqlType]
  simp

/-! ### Resolving literals -/

theorem resolvePairs_append (l l' : List (List UInt8 × Datum)) :
    resolvePairs (l ++ l') = resolvePairs l ++ resolvePairs l' := by
  induction l with
  | nil => rfl
  | cons pair rest ih =>
      obtain ⟨key, value⟩ := pair
      rw [List.cons_append, resolvePairs, resolvePairs]
      split <;> simp [ih]

theorem containsLiteralPairs_append (l l' : List (List UInt8 × Datum)) :
    containsLiteralPairs (l ++ l') = (containsLiteralPairs l || containsLiteralPairs l') := by
  induction l with
  | nil => simp [containsLiteralPairs]
  | cons pair rest ih =>
      rw [List.cons_append, containsLiteralPairs, containsLiteralPairs, ih, Bool.or_assoc]

theorem withLiteralsPairs_append (l l' : List (List UInt8 × Datum)) :
    withLiteralsPairs (l ++ l') = (withLiteralsPairs l && withLiteralsPairs l') := by
  induction l with
  | nil => simp [withLiteralsPairs]
  | cons pair rest ih =>
      obtain ⟨key, value⟩ := pair
      rw [List.cons_append, withLiteralsPairs, withLiteralsPairs, ih]
      simp only [Bool.and_assoc]

theorem resolveElements_append (l l' : List Datum) :
    resolveElements (l ++ l') = resolveElements l ++ resolveElements l' := by
  induction l with
  | nil => rfl
  | cons element rest ih => rw [List.cons_append, resolveElements, resolveElements, ih]; rfl

theorem containsLiteralElements_append (l l' : List Datum) :
    containsLiteralElements (l ++ l') =
      (containsLiteralElements l || containsLiteralElements l') := by
  induction l with
  | nil => simp [containsLiteralElements]
  | cons element rest ih =>
      rw [List.cons_append, containsLiteralElements, containsLiteralElements, ih, Bool.or_assoc]

theorem withLiteralsElements_append (l l' : List Datum) :
    withLiteralsElements (l ++ l') = (withLiteralsElements l && withLiteralsElements l') := by
  induction l with
  | nil => simp [withLiteralsElements]
  | cons element rest ih =>
      rw [List.cons_append, withLiteralsElements, withLiteralsElements, ih, Bool.and_assoc]

theorem plainKey_of_withLiteralsPairs {l : List (List UInt8 × Datum)}
    (withLiterals : withLiteralsPairs l = true) : ∀ p ∈ l, plainKey p.1 = true := by
  induction l with
  | nil => simp
  | cons pair rest ih =>
      obtain ⟨key, value⟩ := pair
      rw [withLiteralsPairs, Bool.and_eq_true, Bool.and_eq_true] at withLiterals
      intro p member
      rcases List.mem_cons.mp member with rfl | member
      · exact withLiterals.1.1
      · exact ih withLiterals.2 p member

theorem keys_resolvePairs_sublist (l : List (List UInt8 × Datum)) :
    ((resolvePairs l).map Prod.fst).Sublist (l.map Prod.fst) := by
  induction l with
  | nil => exact List.Sublist.slnil
  | cons pair rest ih =>
      obtain ⟨key, value⟩ := pair
      rw [resolvePairs]
      split
      · exact ih.cons _
      · exact ih.cons_cons _
      · exact ih.cons_cons _

theorem sortedKeys_resolvePairs {l : List (List UInt8 × Datum)} (sorted : SortedKeys l) :
    SortedKeys (resolvePairs l) := by
  have keys : (l.map Prod.fst).Pairwise (· < ·) := List.pairwise_map.mpr sorted
  exact List.pairwise_map.mp (keys.sublist (keys_resolvePairs_sublist l))

mutual

/-- Without literals there is nothing to resolve. -/
theorem resolveLiterals_eq_self : ∀ d : Datum, d.withLiterals = true →
    d.containsLiteral = false → d.resolveLiterals = d
  | .object pairs, withLiterals, noLiteral => by
      rw [Datum.withLiterals, Bool.and_eq_true] at withLiterals
      rw [Datum.containsLiteral, Bool.or_eq_false_iff] at noLiteral
      rw [Datum.resolveLiterals, resolvePairs_eq_self pairs withLiterals.2 noLiteral.2]
  | .array elements, withLiterals, noLiteral => by
      rw [Datum.withLiterals] at withLiterals
      rw [Datum.containsLiteral] at noLiteral
      rw [Datum.resolveLiterals, resolveElements_eq_self elements withLiterals noLiteral]
  | .minval, _, _ | .maxval, _, _ | .null, _, _ | .bool _, _, _ | .num _, _, _ | .str _, _, _
  | .binary _, _, _ => rfl

theorem resolvePairs_eq_self : ∀ pairs : List (List UInt8 × Datum),
    withLiteralsPairs pairs = true → containsLiteralPairs pairs = false → resolvePairs pairs = pairs
  | [], _, _ => rfl
  | (key, value) :: rest, withLiterals, noLiteral => by
      rw [containsLiteralPairs, Bool.or_eq_false_iff] at noLiteral
      rw [withLiteralsPairs, Bool.and_eq_true, Bool.and_eq_true] at withLiterals
      cases found : literalValue value with
      | some x =>
          -- A literal contains one.
          rw [eq_literal_of_literalValue found, containsLiteral_literal] at noLiteral
          cases noLiteral.1
      | none =>
          simp only [found] at withLiterals
          rw [resolvePairs, found]
          simp only
          rw [resolveLiterals_eq_self value withLiterals.1.2 noLiteral.1,
            resolvePairs_eq_self rest withLiterals.2 noLiteral.2]

theorem resolveElements_eq_self : ∀ elements : List Datum,
    withLiteralsElements elements = true → containsLiteralElements elements = false →
      resolveElements elements = elements
  | [], _, _ => rfl
  | element :: rest, withLiterals, noLiteral => by
      rw [withLiteralsElements, Bool.and_eq_true] at withLiterals
      rw [containsLiteralElements, Bool.or_eq_false_iff] at noLiteral
      rw [resolveElements, resolveLiterals_eq_self element withLiterals.1 noLiteral.1,
        resolveElements_eq_self rest withLiterals.2 noLiteral.2]

end

end Shapes

/-! ## Building objects in key order -/

theorem checkStrValidity_of_notMem {key : List UInt8} (valid : (0 : UInt8) ∉ key) :
    checkStrValidity key = .ok () := by
  simp only [checkStrValidity, valid, if_false]
  rfl

namespace ObjectBuilder

variable {key : List UInt8} {val : Datum}

/-- `add` of a key above every key of the builder appends it. -/
theorem addFresh_of_lt {builder : ObjectBuilder} (valid : (0 : UInt8) ∉ key)
    (above : ∀ p ∈ builder.map, p.1 < key) :
    builder.addFresh key val = .ok ⟨builder.map ++ [(key, val)]⟩ := by
  simp only [addFresh, add, checkStrValidity_of_notMem valid, mapInsert_of_lt above]
  rfl

theorem foldlM_addFresh : ∀ (pairs : List (List UInt8 × Datum)) (builder : ObjectBuilder),
    SortedKeys (builder.map ++ pairs) → (∀ p ∈ pairs, (0 : UInt8) ∉ p.1) →
      pairs.foldlM (fun builder pair => builder.addFresh pair.1 pair.2) builder =
        .ok ⟨builder.map ++ pairs⟩
  | [], builder, _, _ => by simp; rfl
  | pair :: rest, builder, sorted, valid => by
      have above : ∀ p ∈ builder.map, p.1 < pair.1 := fun p member =>
        (List.pairwise_append.mp sorted).2.2 p member pair (List.mem_cons_self ..)
      rw [List.foldlM_cons, addFresh_of_lt (valid pair (List.mem_cons_self ..)) above]
      simp only [bind, Except.bind]
      rw [foldlM_addFresh rest ⟨builder.map ++ [pair]⟩ (by simpa using sorted)
        fun p member => valid p (List.mem_cons_of_mem _ member)]
      simp

/-- An object built with plain keys is no pseudotype, so `to_datum` sanitizes nothing. -/
theorem toDatum_of_plainKeys (sanitize : Datum → Except Error Datum) {builder : ObjectBuilder}
    (sorted : SortedKeys builder.map) (keys : ∀ p ∈ builder.map, plainKey p.1 = true) :
    builder.toDatum sanitize = .ok (.object builder.map) := by
  simp only [toDatum, Datum.isPtype, fieldOf_reqlType_of_plainKeys sorted keys, Option.isSome_none,
    Bool.false_eq_true, if_false]
  rfl

end ObjectBuilder

/-! ## Dropping literals -/

section Dropping

variable (sanitize : Datum → Except Error Datum)

mutual

/-- **A datum with no literal comes back as it is**, and `encountered_literal_out` is
`false`. -/
theorem dropLiterals_of_plain : ∀ d : Datum, d.plain = true → dropLiterals sanitize d = .ok (some d, false)
  | .object pairs, plain => by
      rw [Datum.plain, Bool.and_eq_true, decide_eq_true_iff] at plain
      rw [dropLiterals, isPtypeOf_literal_of_absent (fieldOf_reqlType_of_plainPairs plain.1 plain.2)]
      simp only [bind, Except.bind, pure, Except.pure, Bool.false_eq_true, if_false]
      rw [dropLiteralsPairs_of_plain [] pairs plain.2]
      rfl
  | .array elements, plain => by
      rw [Datum.plain] at plain
      rw [dropLiterals, isPtypeOf_literal_of_not_object (fun _ => Datum.noConfusion)]
      simp only [bind, Except.bind, pure, Except.pure, Bool.false_eq_true, if_false]
      rw [dropLiteralsElements_of_plain [] elements plain]
      rfl
  | .minval, _ | .maxval, _ | .null, _ | .bool _, _ | .num _, _ | .str _, _ | .binary _, _ => rfl

theorem dropLiteralsPairs_of_plain : ∀ (done pairs : List (List UInt8 × Datum)),
    plainPairs pairs = true → dropLiteralsPairs sanitize done pairs (false, ⟨[]⟩) = .ok (false, ⟨[]⟩)
  | _, [], _ => rfl
  | done, (key, value) :: rest, plain => by
      rw [plainPairs, Bool.and_eq_true, Bool.and_eq_true] at plain
      rw [dropLiteralsPairs, dropLiterals_of_plain value plain.1.2]
      exact dropLiteralsPairs_of_plain (done ++ [(key, value)]) rest plain.2

theorem dropLiteralsElements_of_plain : ∀ (done elements : List Datum),
    plainElements elements = true →
      dropLiteralsElements sanitize done elements (false, []) = .ok (false, [])
  | _, [], _ => rfl
  | done, element :: rest, plain => by
      rw [plainElements, Bool.and_eq_true] at plain
      rw [dropLiteralsElements, dropLiterals_of_plain element plain.1]
      exact dropLiteralsElements_of_plain (done ++ [element]) rest plain.2

end

/-- A field of a right-hand object: its literal's value, or the value with its literals
resolved. -/
theorem dropLiterals_field {key : List UInt8} {value : Datum}
    (fieldOk : withLiteralsPairs [(key, value)] = true)
    (recursive : value.withLiterals = true →
      dropLiterals sanitize value = .ok (some value.resolveLiterals, value.containsLiteral)) :
    ∃ out, dropLiterals sanitize value = .ok (out, value.containsLiteral) ∧
      resolvePairs [(key, value)] = out.toList.map fun v => (key, v) := by
  rw [withLiteralsPairs, Bool.and_eq_true, Bool.and_eq_true] at fieldOk
  cases found : literalValue value with
  | some x =>
      have same := eq_literal_of_literalValue found
      subst same
      rw [containsLiteral_literal]
      refine ⟨x, ?_, ?_⟩
      · cases x with
        | none => rfl
        | some v =>
            -- The literal's value is plain, so the nested call meets no literal.
            simp only [literalValue_literal] at fieldOk
            have isLiteral := isPtypeOf_literal_of_fieldOf (fieldOf_literal_reqlType (some v))
            simp only [Option.toList_some, List.map_cons, List.map_nil] at isLiteral
            simp only [literal, Option.toList_some, List.map_cons, List.map_nil]
            rw [dropLiterals, isLiteral]
            simp only [bind, Except.bind, pure, Except.pure, beq_self_eq_true, if_true]
            rw [fieldIndex_literal_value]
            simp only [dropLiteralsField, dropLiterals_of_plain sanitize v fieldOk.1.2]
            rfl
      · cases x <;> simp [resolvePairs, literalValue_literal]
  | none =>
      simp only [found] at fieldOk
      refine ⟨some value.resolveLiterals, recursive fieldOk.1.2, ?_⟩
      simp [resolvePairs, found]

/-- The state of the object loop of `drop_literals` after the pairs `done`: whether a literal
came, and then the pairs with their literals resolved. -/
def dropState (done : List (List UInt8 × Datum)) : Bool × ObjectBuilder :=
  (containsLiteralPairs done, ⟨if containsLiteralPairs done then resolvePairs done else []⟩)

/-- The state of the array loop of `drop_literals` after the elements `done`. -/
def dropElementsState (done : List Datum) : Bool × List Datum :=
  (containsLiteralElements done,
    if containsLiteralElements done then resolveElements done else [])

/-- **One step of the object loop of `drop_literals`**: the first literal copies the pairs
done, which have none, and from then on the resolved fields go in, each above the last. -/
theorem dropLiteralsPairs_cons {done rest : List (List UInt8 × Datum)} {key : List UInt8}
    {value : Datum} {out : Option Datum}
    (sorted : SortedKeys (done ++ (key, value) :: rest))
    (withLiterals : withLiteralsPairs (done ++ [(key, value)]) = true)
    (head : dropLiterals sanitize value = .ok (out, value.containsLiteral))
    (resolved : resolvePairs [(key, value)] = out.toList.map fun v => (key, v)) :
    dropLiteralsPairs sanitize done ((key, value) :: rest) (dropState done) =
      dropLiteralsPairs sanitize (done ++ [(key, value)]) rest
        (dropState (done ++ [(key, value)])) := by
  have valid : ∀ p ∈ done ++ [(key, value)], (0 : UInt8) ∉ p.1 := fun p member =>
    notMem_of_plainKey (plainKey_of_withLiteralsPairs withLiterals p member)
  rw [withLiteralsPairs_append, Bool.and_eq_true] at withLiterals
  have above : ∀ p ∈ done, p.1 < key := fun p member =>
    (List.pairwise_append.mp sorted).2.2 p member (key, value) (List.mem_cons_self ..)
  have sortedDone : SortedKeys done := (List.pairwise_append.mp sorted).1
  have containsField : containsLiteralPairs [(key, value)] = value.containsLiteral := by
    simp [containsLiteralPairs]
  unfold dropState
  rw [dropLiteralsPairs, head, containsLiteralPairs_append, containsField, resolvePairs_append,
    resolved]
  cases copied : containsLiteralPairs done <;> cases found : value.containsLiteral
  · simp
    rfl
  · -- The first literal: the pairs done go into the builder as they are.
    simp only [bind, Except.bind, pure, Except.pure, Bool.not_false, Bool.and_true, if_true,
      Bool.false_eq_true, if_false, Bool.false_or]
    rw [ObjectBuilder.foldlM_addFresh done ⟨[]⟩ sortedDone
      (fun p member => valid p (List.mem_append_left _ member))]
    rw [resolvePairs_eq_self done withLiterals.1 copied]
    cases out with
    | none => simp
    | some v =>
        simp only [List.nil_append]
        rw [ObjectBuilder.addFresh_of_lt (valid (key, value) (by simp)) above]
        simp
  all_goals
    simp only [bind, Except.bind, pure, Except.pure, Bool.not_true, Bool.and_false, if_true,
      Bool.false_eq_true, if_false, Bool.true_or]
    have aboveResolved : ∀ p ∈ resolvePairs done, p.1 < key := by
      intro p member
      obtain ⟨q, memberQ, same⟩ := List.mem_map.mp
        ((keys_resolvePairs_sublist done).subset (List.mem_map_of_mem member))
      exact same ▸ above q memberQ
    cases out with
    | none => simp
    | some v =>
        simp only
        rw [ObjectBuilder.addFresh_of_lt (valid (key, value) (by simp)) aboveResolved]
        simp

/-- One step of the array loop of `drop_literals`. -/
theorem dropLiteralsElements_cons {done rest : List Datum} {element : Datum}
    (withLiterals : withLiteralsElements done = true)
    (head : dropLiterals sanitize element =
      .ok (some element.resolveLiterals, element.containsLiteral)) :
    dropLiteralsElements sanitize done (element :: rest) (dropElementsState done) =
      dropLiteralsElements sanitize (done ++ [element]) rest
        (dropElementsState (done ++ [element])) := by
  have containsElement : containsLiteralElements [element] = element.containsLiteral := by
    simp [containsLiteralElements]
  unfold dropElementsState
  rw [dropLiteralsElements, head, containsLiteralElements_append, containsElement,
    resolveElements_append]
  cases copied : containsLiteralElements done <;> cases found : element.containsLiteral
  · simp
    rfl
  · simp only [bind, Except.bind]
    rw [resolveElements_eq_self done withLiterals copied]
    simp [resolveElements]
  all_goals
    simp only [bind, Except.bind]
    simp [resolveElements]

mutual

/-- **Dropping literals resolves them**: a right-hand datum comes back with every literal
field replaced by its value, or left out, and `encountered_literal_out` says whether it had
one. -/
theorem dropLiterals_of_withLiterals : ∀ d : Datum, d.withLiterals = true →
    dropLiterals sanitize d = .ok (some d.resolveLiterals, d.containsLiteral)
  | .object pairs, withLiterals => by
      rw [Datum.withLiterals, Bool.and_eq_true, decide_eq_true_iff] at withLiterals
      have keys := plainKey_of_withLiteralsPairs withLiterals.2
      have absent := fieldOf_reqlType_of_plainKeys withLiterals.1 keys
      have loop := dropLiteralsPairs_of_withLiterals pairs [] withLiterals.1 withLiterals.2
      rw [List.nil_append] at loop
      rw [dropLiterals, isPtypeOf_literal_of_absent absent]
      simp only [bind, Except.bind, pure, Except.pure, Bool.false_eq_true, if_false]
      rw [show ((false, ⟨[]⟩) : Bool × ObjectBuilder) = dropState [] from rfl, loop]
      unfold dropState
      simp only [Datum.containsLiteral, absent, Datum.resolveLiterals]
      cases found : containsLiteralPairs pairs
      · simp only [Bool.false_eq_true, if_false]
        rw [resolvePairs_eq_self pairs withLiterals.2 found]
        rfl
      · -- The resolved pairs have plain keys, so `to_datum` sanitizes nothing.
        have sorted := sortedKeys_resolvePairs withLiterals.1
        have resolvedKeys : ∀ p ∈ resolvePairs pairs, plainKey p.1 = true := by
          intro p member
          obtain ⟨q, memberQ, same⟩ := List.mem_map.mp
            ((keys_resolvePairs_sublist pairs).subset (List.mem_map_of_mem member))
          exact same ▸ keys q memberQ
        simp only [if_true]
        rw [ObjectBuilder.toDatum_of_plainKeys sanitize sorted resolvedKeys]
        simp
  | .array elements, withLiterals => by
      rw [Datum.withLiterals] at withLiterals
      have loop := dropLiteralsElements_of_withLiterals elements [] withLiterals
      rw [List.nil_append] at loop
      rw [dropLiterals, isPtypeOf_literal_of_not_object (fun _ => Datum.noConfusion)]
      simp only [bind, Except.bind, pure, Except.pure, Bool.false_eq_true, if_false]
      rw [show ((false, []) : Bool × List Datum) = dropElementsState [] from rfl, loop]
      unfold dropElementsState
      simp only [Datum.containsLiteral, Datum.resolveLiterals]
      cases found : containsLiteralElements elements
      · simp only [Bool.false_eq_true, if_false]
        rw [resolveElements_eq_self elements withLiterals found]
      · rfl
  | .minval, _ | .maxval, _ | .null, _ | .bool _, _ | .num _, _ | .str _, _ | .binary _, _ => rfl

theorem dropLiteralsPairs_of_withLiterals : ∀ (rest done : List (List UInt8 × Datum)),
    SortedKeys (done ++ rest) → withLiteralsPairs (done ++ rest) = true →
      dropLiteralsPairs sanitize done rest (dropState done) = .ok (dropState (done ++ rest))
  | [], done, _, _ => by simp; rfl
  | (key, value) :: rest, done, sorted, withLiterals => by
      have split : done ++ (key, value) :: rest = (done ++ [(key, value)]) ++ rest := by simp
      rw [split, withLiteralsPairs_append, Bool.and_eq_true] at withLiterals
      have fieldOk : withLiteralsPairs [(key, value)] = true := by
        rw [withLiteralsPairs_append, Bool.and_eq_true] at withLiterals
        exact withLiterals.1.2
      obtain ⟨out, head, resolved⟩ :=
        dropLiterals_field sanitize fieldOk (dropLiterals_of_withLiterals value)
      rw [dropLiteralsPairs_cons sanitize sorted withLiterals.1 head resolved, split]
      exact dropLiteralsPairs_of_withLiterals rest (done ++ [(key, value)]) (split ▸ sorted)
        (by rw [withLiteralsPairs_append, withLiterals.1, withLiterals.2]; rfl)

theorem dropLiteralsElements_of_withLiterals : ∀ (rest done : List Datum),
    withLiteralsElements (done ++ rest) = true →
      dropLiteralsElements sanitize done rest (dropElementsState done) =
        .ok (dropElementsState (done ++ rest))
  | [], done, _ => by simp; rfl
  | element :: rest, done, withLiterals => by
      have split : done ++ element :: rest = (done ++ [element]) ++ rest := by simp
      rw [split, withLiteralsElements_append, withLiteralsElements_append, Bool.and_eq_true,
        Bool.and_eq_true] at withLiterals
      have elementOk : element.withLiterals = true := by
        simpa [withLiteralsElements] using withLiterals.1.2
      rw [dropLiteralsElements_cons sanitize withLiterals.1.1
        (dropLiterals_of_withLiterals element elementOk), split]
      exact dropLiteralsElements_of_withLiterals rest (done ++ [element])
        (by rw [withLiteralsElements_append, withLiteralsElements_append, withLiterals.1.1,
          withLiterals.1.2, withLiterals.2]; rfl)

end

end Dropping

/-! ## Merging, field by field -/

section Merging

variable (sanitize : Datum → Except Error Datum)

theorem isPtypeOf_literal_literal (x : Option Datum) :
    (literal x).isPtypeOf literalString = .ok true := by
  rw [literal, isPtypeOf_literal_of_fieldOf (fieldOf_literal_reqlType x)]
  rfl

theorem isPtypeOf_literal_of_withLiterals {d : Datum} (withLiterals : d.withLiterals = true) :
    d.isPtypeOf literalString = .ok false := by
  cases d with
  | object pairs =>
      rw [Datum.withLiterals, Bool.and_eq_true, decide_eq_true_iff] at withLiterals
      exact isPtypeOf_literal_of_absent
        (fieldOf_reqlType_of_plainKeys withLiterals.1 (plainKey_of_withLiteralsPairs withLiterals.2))
  | _ => exact isPtypeOf_literal_of_not_object fun _ => Datum.noConfusion

theorem getField_literal (x : Option Datum) :
    (literal x).getField valueKey .noThrow = .ok x := by
  cases x with
  | none => rfl
  | some v =>
      have found : fieldOf [(reqlTypeString, .str literalString), (valueKey, v)] valueKey = some v :=
        (fieldOf_eq_some_iff (sortedKeys_literalPairs v)).mpr (by simp)
      simp only [literal, Option.toList_some, List.map_cons, List.map_nil, Datum.getField, found]
      rfl

/-- The first guard of `merge`: a left-hand side that is no object is replaced. -/
theorem merge_of_not_object {lhs : Datum} (notObject : ∀ pairs, lhs ≠ .object pairs) (rhs : Datum) :
    merge sanitize lhs rhs = .ok rhs := by
  rw [merge.eq_2 sanitize lhs rhs fun pairs _ same _ => notObject pairs same]
  rfl

theorem ObjectBuilder.overwrite_of_plainKey {builder : ObjectBuilder} {key : List UInt8}
    (plain : plainKey key = true) (val : Datum) :
    builder.overwrite key val = .ok ⟨mapAssign key val builder.map⟩ := by
  simp only [ObjectBuilder.overwrite, checkStrValidity_of_notMem (notMem_of_plainKey plain)]
  rfl

variable {d : ObjectBuilder} {key : List UInt8}

theorem replaceField_literal_some {v : Datum} (plain : v.plain = true) (keyOk : plainKey key = true) :
    replaceField sanitize d key (literal (some v)) true = .ok ⟨mapAssign key v d.map⟩ := by
  simp only [replaceField, if_true, getField_literal, bind, Except.bind,
    dropLiterals_of_plain sanitize v plain, Bool.false_and, Bool.false_eq_true, if_false, pure,
    Except.pure]
  exact ObjectBuilder.overwrite_of_plainKey keyOk v

theorem replaceField_literal_none :
    replaceField sanitize d key (literal none) true = .ok ⟨mapErase key d.map⟩ := by
  simp only [replaceField, if_true, getField_literal, bind, Except.bind, pure, Except.pure,
    Bool.not_true, Bool.false_eq_true, if_false, ObjectBuilder.deleteField]

theorem replaceField_of_withLiterals {value : Datum} (withLiterals : value.withLiterals = true)
    (keyOk : plainKey key = true) :
    replaceField sanitize d key value false =
      .ok ⟨mapAssign key value.resolveLiterals d.map⟩ := by
  simp only [replaceField, Bool.false_eq_true, if_false, pure, Except.pure, bind, Except.bind,
    dropLiterals_of_withLiterals sanitize value withLiterals, Bool.and_false]
  exact ObjectBuilder.overwrite_of_plainKey keyOk _


theorem mergePairs_cons_replace {isLiteral : Bool}
    (ptype : value.isPtypeOf literalString = .ok isLiteral)
    (noRecursion : d.tryGet key = none ∨ (value.getType == .rObject && !isLiteral) = false) :
    mergePairs sanitize ((key, value) :: rest) d =
      (replaceField sanitize d key value isLiteral).bind (mergePairs sanitize rest) := by
  rw [mergePairs.eq_2, ptype]
  simp only [bind, Except.bind]
  rcases noRecursion with absent | noObject
  · rw [absent]
  · rw [noObject]
    split
    · contradiction
    · rfl

theorem mergePairs_cons_merge {subLhs : Datum}
    (ptype : value.isPtypeOf literalString = .ok false) (object : value.getType = .rObject)
    (found : d.tryGet key = some subLhs) :
    mergePairs sanitize ((key, value) :: rest) d =
      ((merge sanitize subLhs value).bind fun merged => d.overwrite key merged).bind
        (mergePairs sanitize rest) := by
  rw [mergePairs.eq_2, ptype]
  simp only [bind, Except.bind, found, object]
  simp only [beq_self_eq_true, Bool.not_false, Bool.and_self]
  cases merge sanitize subLhs value <;> rfl

/-- What the loop of `merge` leaves at a key of the right-hand side, from the left-hand value
there and the right-hand one. -/
inductive MergedField : Option Datum → Datum → Option Datum → Prop
  /-- `r.literal(v)` puts `v`. -/
  | ofLiteral (old : Option Datum) (v : Datum) : MergedField old (literal (some v)) (some v)
  /-- `r.literal()` deletes the field. -/
  | deleted (old : Option Datum) : MergedField old (literal none) none
  /-- Two objects are merged again. -/
  | merged (lhsPairs rhsPairs : List (List UInt8 × Datum)) (result : Datum) :
      literalValue (.object rhsPairs) = none →
      merge sanitize (.object lhsPairs) (.object rhsPairs) = .ok result →
      MergedField (some (.object lhsPairs)) (.object rhsPairs) (some result)
  /-- A right-hand object under a left-hand value that is no object is kept as it is, its
  literals with it: the first guard of `merge`. -/
  | kept (old : Datum) (rhsPairs : List (List UInt8 × Datum)) :
      literalValue (.object rhsPairs) = none → (∀ pairs, old ≠ .object pairs) →
      MergedField (some old) (.object rhsPairs) (some (.object rhsPairs))
  /-- Any other value goes in with its literals dropped. -/
  | replaced (old : Option Datum) (value : Datum) :
      literalValue value = none → (old = none ∨ ∀ pairs, value ≠ .object pairs) →
      MergedField old value (some value.resolveLiterals)

/-- The builder of `merge` between turns of its loop: in key order, with plain keys. -/
structure PlainKeyed (map : List (List UInt8 × Datum)) : Prop where
  sorted : SortedKeys map
  keys : ∀ p ∈ map, plainKey p.1 = true

theorem PlainKeyed.assign {map : List (List UInt8 × Datum)} (keyed : PlainKeyed map)
    (keyOk : plainKey key = true) (val : Datum) : PlainKeyed (mapAssign key val map) where
  sorted := sortedKeys_mapAssign keyed.sorted
  keys p member := by
    rcases keys_mapAssign map p member with same | ⟨q, memberQ, same⟩
    · rw [same]
      exact keyOk
    · rw [same]
      exact keyed.keys q memberQ

theorem PlainKeyed.erase {map : List (List UInt8 × Datum)} (keyed : PlainKeyed map) :
    PlainKeyed (mapErase key map) where
  sorted := sortedKeys_mapErase keyed.sorted
  keys p member := keyed.keys p ((mapErase_sublist map).subset member)

/-- One turn of the loop of `merge` changes its builder at the turn's key only, as
`MergedField` says. -/
theorem mergePairs_cons {map : List (List UInt8 × Datum)}
    (field : withLiteralsPairs ((key, value) :: rest) = true) (keyed : PlainKeyed map)
    (oldPlain : ∀ old, mapFind key map = some old → old.plain = true)
    (recursive : literalValue value = none → ∀ lhsPairs, (Datum.object lhsPairs).plain = true →
      ∃ result, merge sanitize (.object lhsPairs) value = .ok result) :
    ∃ map', mergePairs sanitize ((key, value) :: rest) ⟨map⟩ = mergePairs sanitize rest ⟨map'⟩ ∧
      PlainKeyed map' ∧ (∀ k ≠ key, mapFind k map' = mapFind k map) ∧
      MergedField sanitize (mapFind key map) value (mapFind key map') := by
  rw [withLiteralsPairs, Bool.and_eq_true, Bool.and_eq_true] at field
  obtain ⟨⟨keyOk, valueOk⟩, -⟩ := field
  have assigned : ∀ val, mapFind key (mapAssign key val map) = some val := fun val => by
    rw [mapFind_mapAssign, if_pos rfl]
  have others : ∀ val, ∀ k ≠ key, mapFind k (mapAssign key val map) = mapFind k map :=
    fun val k differ => by rw [mapFind_mapAssign, if_neg differ]
  cases found : literalValue value with
  | some x =>
      -- A literal: `is_literal` holds, so the field is replaced by the literal's value.
      obtain rfl := eq_literal_of_literalValue found
      rw [found] at valueOk
      have notMerged : ((literal x).getType == .rObject && !true) = false := rfl
      rw [mergePairs_cons_replace sanitize (isPtypeOf_literal_literal x) (.inr notMerged)]
      cases x with
      | none =>
          refine ⟨mapErase key map, by rw [replaceField_literal_none]; rfl, keyed.erase, ?_, ?_⟩
          · intro k differ
            rw [mapFind_mapErase keyed.sorted, if_neg differ]
          · rw [mapFind_mapErase keyed.sorted, if_pos rfl]
            exact .deleted _
      | some v =>
          refine ⟨mapAssign key v map, by rw [replaceField_literal_some sanitize valueOk keyOk]; rfl,
            keyed.assign keyOk v, others v, ?_⟩
          rw [assigned]
          exact .ofLiteral _ v
  | none =>
      rw [found] at valueOk
      have ptype := isPtypeOf_literal_of_withLiterals valueOk
      -- The right-hand value goes in resolved, unless it is an object under a present field.
      have replace : (mapFind key map = none ∨ ∀ pairs, value ≠ .object pairs) →
          ∃ map', mergePairs sanitize ((key, value) :: rest) ⟨map⟩ =
              mergePairs sanitize rest ⟨map'⟩ ∧ PlainKeyed map' ∧
            (∀ k ≠ key, mapFind k map' = mapFind k map) ∧
            MergedField sanitize (mapFind key map) value (mapFind key map') := by
        intro shape
        have noRecursion : (ObjectBuilder.mk map).tryGet key = none ∨
            (value.getType == .rObject && !false) = false := by
          rcases shape with absent | notObject
          · exact .inl absent
          · right
            cases value with
            | object pairs => exact absurd rfl (notObject pairs)
            | _ => rfl
        refine ⟨mapAssign key value.resolveLiterals map, ?_, keyed.assign keyOk _, others _, ?_⟩
        · rw [mergePairs_cons_replace sanitize ptype noRecursion,
            replaceField_of_withLiterals sanitize valueOk keyOk]
          rfl
        · rw [assigned]
          exact .replaced _ value found shape
      rcases Option.eq_none_or_eq_some (mapFind key map) with absent | ⟨subLhs, old⟩
      · exact replace (.inl absent)
      · cases value with
          | object rhsPairs =>
              have step : mergePairs sanitize ((key, .object rhsPairs) :: rest) ⟨map⟩ = _ :=
                mergePairs_cons_merge sanitize ptype rfl old
              by_cases lhsObject : ∃ lhsPairs, subLhs = .object lhsPairs
              · -- Both are objects: `merge` again.
                obtain ⟨lhsPairs, rfl⟩ := lhsObject
                obtain ⟨result, merged⟩ := recursive found lhsPairs (oldPlain _ old)
                refine ⟨mapAssign key result map, ?_, keyed.assign keyOk result, others result, ?_⟩
                · rw [step, merged]
                  simp only [Except.bind, ObjectBuilder.overwrite_of_plainKey keyOk]
                · rw [assigned, old]
                  exact .merged lhsPairs rhsPairs result found merged
              · -- The first guard of `merge` keeps the right-hand object.
                have notObject : ∀ pairs, subLhs ≠ .object pairs := fun pairs same =>
                  lhsObject ⟨pairs, same⟩
                refine ⟨mapAssign key (.object rhsPairs) map, ?_, keyed.assign keyOk _, others _, ?_⟩
                · rw [step, merge_of_not_object sanitize notObject]
                  simp only [Except.bind, ObjectBuilder.overwrite_of_plainKey keyOk]
                · rw [assigned, old]
                  exact .kept subLhs rhsPairs found notObject
          | _ => exact replace (.inr fun _ => Datum.noConfusion)

/-- The object `merge` builds is the builder after its loop. -/
theorem merge_objects_of_loop {lhsPairs rhsPairs map : List (List UInt8 × Datum)}
    (sorted : SortedKeys lhsPairs) (loop : mergePairs sanitize rhsPairs ⟨lhsPairs⟩ = .ok ⟨map⟩)
    (keyed : PlainKeyed map) :
    merge sanitize (.object lhsPairs) (.object rhsPairs) = .ok (.object map) := by
  have copy : ObjectBuilder.ofPairs lhsPairs = ⟨lhsPairs⟩ :=
    congrArg ObjectBuilder.mk (ofPairs_map sorted)
  rw [merge, copy, loop]
  exact ObjectBuilder.toDatum_of_plainKeys sanitize keyed.sorted keyed.keys

theorem PlainKeyed.of_plain {pairs : List (List UInt8 × Datum)}
    (plain : (Datum.object pairs).plain = true) : PlainKeyed pairs := by
  rw [Datum.plain, Bool.and_eq_true, decide_eq_true_iff] at plain
  exact ⟨plain.1, fun p member => ((plainPairs_iff.mp plain.2) p member).1⟩

theorem plain_of_mapFind {pairs : List (List UInt8 × Datum)} {old : Datum}
    (plain : (Datum.object pairs).plain = true) (found : mapFind key pairs = some old) :
    old.plain = true := by
  rw [Datum.plain, Bool.and_eq_true] at plain
  exact ((plainPairs_iff.mp plain.2) _ (mem_of_mapFind_eq_some found)).2

mutual

/-- `merge` of a plain object with a right-hand side whose literals are field values
succeeds. -/
theorem merge_ok_of_withLiterals : ∀ rhs : Datum, rhs.withLiterals = true →
    ∀ lhsPairs, (Datum.object lhsPairs).plain = true →
      ∃ result, merge sanitize (.object lhsPairs) rhs = .ok result
  | .object rhsPairs, withLiterals, lhsPairs, plain => by
      rw [Datum.withLiterals, Bool.and_eq_true, decide_eq_true_iff] at withLiterals
      obtain ⟨map, loop, keyed, -⟩ := mergePairs_fields rhsPairs lhsPairs withLiterals.1
        withLiterals.2 (PlainKeyed.of_plain plain) fun _ _ _ found => plain_of_mapFind plain found
      exact ⟨_, merge_objects_of_loop sanitize (PlainKeyed.of_plain plain).sorted loop keyed⟩
  | .minval, _, _, _ | .maxval, _, _, _ | .null, _, _, _ | .bool _, _, _, _ | .num _, _, _, _
  | .str _, _, _, _ | .binary _, _, _, _ | .array _, _, _, _ => ⟨_, rfl⟩

/-- **The loop of `merge`**: from a builder in key order whose values at the keys still to
come are plain, each key of the right-hand side ends as `MergedField` says and every other
key keeps its value. -/
theorem mergePairs_fields : ∀ (rhsPairs map : List (List UInt8 × Datum)),
    SortedKeys rhsPairs → withLiteralsPairs rhsPairs = true → PlainKeyed map →
    (∀ p ∈ rhsPairs, ∀ old, mapFind p.1 map = some old → old.plain = true) →
      ∃ map', mergePairs sanitize rhsPairs ⟨map⟩ = .ok ⟨map'⟩ ∧ PlainKeyed map' ∧
        (∀ k, mapFind k rhsPairs = none → mapFind k map' = mapFind k map) ∧
        ∀ k value, mapFind k rhsPairs = some value →
          MergedField sanitize (mapFind k map) value (mapFind k map')
  | [], map, _, _, keyed, _ =>
      ⟨map, rfl, keyed, fun _ _ => rfl, fun _ _ found => by simp [mapFind] at found⟩
  | (key, value) :: rest, map, sorted, field, keyed, pending => by
      have restField : withLiteralsPairs rest = true := by
        simp only [withLiteralsPairs, Bool.and_eq_true] at field
        exact field.2
      have fieldValue : literalValue value = none → value.withLiterals = true := fun found => by
        simp only [withLiteralsPairs, found, Bool.and_eq_true] at field
        exact field.1.2
      obtain ⟨map₁, step, keyed₁, others, here⟩ := mergePairs_cons sanitize field keyed
        (pending (key, value) (List.mem_cons_self ..))
        fun found => merge_ok_of_withLiterals value (fieldValue found)
      rw [SortedKeys, List.pairwise_cons] at sorted
      -- The keys still to come are above `key`, so this turn left them as they were.
      have later : ∀ p ∈ rest, p.1 ≠ key := fun p member same =>
        List.lt_irrefl key (same ▸ sorted.1 p member)
      obtain ⟨map', loop, keyed', kept, merged⟩ := mergePairs_fields rest map₁ sorted.2
        restField keyed₁ fun p member old found =>
          pending p (List.mem_cons_of_mem _ member) old (others p.1 (later p member) ▸ found)
      have absent : mapFind key rest = none := mapFind_eq_none_of_lt sorted.1
      refine ⟨map', step.trans loop, keyed', ?_, ?_⟩
      · intro k notFound
        rw [mapFind_cons] at notFound
        split at notFound
        · cases notFound
        · rename_i differ
          rw [kept k notFound, others k differ]
      · intro k v found
        rw [mapFind_cons] at found
        split at found
        · rename_i same
          subst same
          cases found
          rw [kept k absent]
          exact here
        · rename_i differ
          rw [← others k differ]
          exact merged k v found

end

/-- **What `merge` does, field by field**, for a plain left-hand object and a right-hand
object whose literals are field values: a key absent on the right keeps its left-hand value,
and every other key ends as `MergedField` says. -/
theorem merge_fields {lhsPairs rhsPairs : List (List UInt8 × Datum)}
    (plain : (Datum.object lhsPairs).plain = true)
    (withLiterals : (Datum.object rhsPairs).withLiterals = true) :
    ∃ merged, merge sanitize (.object lhsPairs) (.object rhsPairs) = .ok (.object merged) ∧
      SortedKeys merged ∧
      (∀ key, fieldOf rhsPairs key = none → fieldOf merged key = fieldOf lhsPairs key) ∧
      ∀ key value, fieldOf rhsPairs key = some value →
        MergedField sanitize (fieldOf lhsPairs key) value (fieldOf merged key) := by
  have keyedLhs := PlainKeyed.of_plain plain
  rw [Datum.withLiterals, Bool.and_eq_true, decide_eq_true_iff] at withLiterals
  obtain ⟨map, loop, keyed, kept, merged⟩ := mergePairs_fields sanitize rhsPairs lhsPairs
    withLiterals.1 withLiterals.2 keyedLhs fun _ _ _ found => plain_of_mapFind plain found
  refine ⟨map, merge_objects_of_loop sanitize keyedLhs.sorted loop keyed, keyed.sorted, ?_, ?_⟩
  · intro key absent
    rw [← mapFind_eq_fieldOf withLiterals.1] at absent
    rw [← mapFind_eq_fieldOf keyed.sorted, ← mapFind_eq_fieldOf keyedLhs.sorted, kept key absent]
  · intro key value found
    rw [← mapFind_eq_fieldOf withLiterals.1] at found
    rw [← mapFind_eq_fieldOf keyed.sorted, ← mapFind_eq_fieldOf keyedLhs.sorted]
    exact merged key value found

/-- A non-literal right-hand object under a left-hand value that is no object is kept. -/
theorem MergedField.eq_of_not_object {old : Datum} {fieldPairs : List (List UInt8 × Datum)}
    {new : Option Datum} (field : MergedField sanitize (some old) (.object fieldPairs) new)
    (notLiteral : literalValue (.object fieldPairs) = none)
    (notObject : ∀ pairs, old ≠ .object pairs) : new = some (.object fieldPairs) := by
  cases field with
  | ofLiteral _ v => cases notLiteral.symm.trans (literalValue_literal (some v))
  | deleted _ => cases notLiteral.symm.trans (literalValue_literal none)
  | merged lhsPairs _ _ _ _ => exact absurd rfl (notObject lhsPairs)
  | kept _ _ _ _ => rfl
  | replaced _ _ _ shape =>
      rcases shape with absent | notRhsObject
      · cases absent
      · exact absurd rfl (notRhsObject fieldPairs)

/-- **Where `merge` departs from `r.literal`'s documented semantics**: below a left-hand field
that is no object, a right-hand object goes in as it is, with the literals it holds. -/
theorem merge_keeps_object_below_non_object
    {lhsPairs rhsPairs fieldPairs : List (List UInt8 × Datum)} {key : List UInt8} {old : Datum} (plain : (Datum.object lhsPairs).plain = true)
    (withLiterals : (Datum.object rhsPairs).withLiterals = true)
    (oldAt : fieldOf lhsPairs key = some old) (notObject : ∀ pairs, old ≠ .object pairs)
    (rhsAt : fieldOf rhsPairs key = some (.object fieldPairs))
    (notLiteral : literalValue (.object fieldPairs) = none) :
    ∃ merged, merge sanitize (.object lhsPairs) (.object rhsPairs) = .ok (.object merged) ∧
      fieldOf merged key = some (.object fieldPairs) := by
  obtain ⟨merged, result, -, -, fields⟩ := merge_fields sanitize plain withLiterals
  have here := fields key _ rhsAt
  rw [oldAt] at here
  exact ⟨merged, result, here.eq_of_not_object sanitize notLiteral notObject⟩

end Merging

/-- `r.expr({a: 3}).merge({a: {b: r.literal(5)}})` keeps the literal, also through the merge
term, where the documented semantics gives `{a: {b: 5}}`. -/
theorem merge_keeps_literal_below_number (sanitize : Datum → Except Error Datum) :
    let lhs := Datum.object [(ascii "a", .num ⟨0x4008000000000000⟩)]
    let rhs := Datum.object
      [(ascii "a", .object [(ascii "b", literal (some (.num ⟨0x4014000000000000⟩)))])]
    lhs.plain = true ∧ rhs.withLiterals = true ∧ merge sanitize lhs rhs = .ok rhs ∧
      mergeTerm sanitize .v2_1 lhs [rhs] = .ok rhs ∧ rhs.containsLiteral = true := by
  intro lhs rhs
  exact ⟨by decide, by decide, rfl, rfl, by decide⟩

end Ql
end RethinkDB
