import RethinkDB.RdbProtocol.Datum

/-!
# Comparison of datums

`datum_t::cmp` dispatches on the ReQL version: `v1_13` has its own order, every later
version uses `modern_cmp`.  Both order first by a type and then within a type;
pseudotypes are ordered by their `$reql_type$`, and within a type by `pseudo_cmp`
(binary strings bytewise, times by their `epoch_time` field).

`modern_cmp` decides which scheme applies from `is_ptype() && !pseudo_compares_as_obj()`:
a geometry value is a pseudotype but compares as an object.  When exactly one side is a
pseudotype in that sense, the two sides are ordered by their type names for sorting;
otherwise by the `type_t` enumerator.  A geometry value therefore takes part in the
second scheme as `PTYPE<GEOMETRY>` and in the third as `R_OBJECT`.

`pseudo_cmp` and the `time_cmp` it calls are written inside the two comparisons: the
recursive call of `time_cmp` is on a field of the left datum, reached by walking its pairs
to the index the binary search returns, so that every function here is structurally
recursive and computes.
-/

namespace RethinkDB
namespace Ql

/-- `derived_cmp`: `0`, `-1` or `1` from `==` and `<`. -/
def derivedCmp {α : Type} [DecidableEq α] [LT α] [DecidableRel (α := α) (· < ·)]
    (a b : α) : Int :=
  if a = b then 0 else if a < b then -1 else 1

/-- `reql_version_t`; `v1_15` is `v1_14`. -/
inductive ReqlVersion where
  | v1_13
  | v1_14
  | v1_16
  | v2_0
  | v2_1
  deriving DecidableEq, Repr

/-- The operand test of `modern_cmp`: `is_ptype() && !pseudo_compares_as_obj()`. -/
def Datum.comparesAsPtype (d : Datum) : Except Error Bool :=
  if d.isPtype then do
    let asObject ← d.pseudoComparesAsObj
    return !asObject
  else pure false

mutual

/-- `datum_t::modern_cmp`, the order of every version since `v1_14`. -/
def modernCmp (a b : Datum) : Except Error Int := do
  let lhsPtype ← a.comparesAsPtype
  let rhsPtype ← b.comparesAsPtype
  if lhsPtype && rhsPtype then
    let lhsType ← a.getReqlType
    let rhsType ← b.getReqlType
    if lhsType ≠ rhsType then
      return derivedCmp lhsType rhsType
    -- `pseudo_cmp(LATEST_has_v1_14_ordering, rhs)`
    match a with
    | .binary data =>
        let rhsData ← b.asBinary
        return datumStringCompare data rhsData
    | .object pairs =>
        if lhsType = timeString then
          -- `time_cmp`: the `epoch_time` fields, compared by `cmp` at the same version
          match fieldIndex pairs epochTimeKey with
          | some index =>
              match ← b.getField epochTimeKey .throw with
              | some rhsTime => modernCmpField pairs index rhsTime
              | none => throw .unreachable
          | none => throw (.noAttribute epochTimeKey a)
        else
          let typeName ← a.getTypeName .no
          throw (.incomparableType typeName)
    | _ => throw .sanityCheck
  else if lhsPtype || rhsPtype then
    let lhsName ← a.getTypeName .yes
    let rhsName ← b.getTypeName .yes
    return derivedCmp lhsName rhsName
  else if a.getType ≠ b.getType then
    return derivedCmp a.getType.toNat b.getType.toNat
  else
    match a, b with
    | .null, .null | .minval, .minval | .maxval, .maxval => return 0
    | .bool x, .bool y => return derivedCmp x.toNat y.toNat
    | .num x, .num y => return derivedCmp x.value y.value
    | .str x, .str y => return datumStringCompare x y
    | .array xs, .array ys => modernCmpArray xs ys
    | .object ps, .object qs => modernCmpObject ps qs
    | _, _ => throw .unreachable

/-- The array loop of `modern_cmp`: elementwise, and a proper prefix first. -/
def modernCmpArray : List Datum → List Datum → Except Error Int
  | [], [] => pure 0
  | [], _ :: _ => pure (-1)
  | _ :: _, [] => pure 1
  | x :: xs, y :: ys => do
      let cmpval ← modernCmp x y
      if cmpval ≠ 0 then return cmpval
      modernCmpArray xs ys

/-- The object loop of `modern_cmp`: pair by pair, the key before the value. -/
def modernCmpObject :
    List (List UInt8 × Datum) → List (List UInt8 × Datum) → Except Error Int
  | (key, value) :: pairs, (rhsKey, rhsValue) :: rhsPairs => do
      let keyCmpval := datumStringCompare key rhsKey
      if keyCmpval ≠ 0 then return keyCmpval
      let valCmpval ← modernCmp value rhsValue
      if valCmpval ≠ 0 then return valCmpval
      modernCmpObject pairs rhsPairs
  | _ :: _, [] => pure 1
  | [], _ :: _ => pure (-1)
  | [], [] => pure 0

/-- `modern_cmp` of the value at `index` among `pairs` with `rhs`. -/
def modernCmpField : List (List UInt8 × Datum) → Nat → Datum → Except Error Int
  | (_, value) :: _, 0, rhs => modernCmp value rhs
  | _ :: pairs, index + 1, rhs => modernCmpField pairs index rhs
  | [], _, _ => throw .unreachable

end

mutual

/-- `datum_t::v1_13_cmp`.  The extrema first, then pseudotypes after everything else,
then the type enumerator; two binary values reach the `unreachable()` of the switch. -/
def v113Cmp (a b : Datum) : Except Error Int := do
  if a.getType = .minval && b.getType ≠ .minval then return -1
  if a.getType = .maxval && b.getType ≠ .maxval then return 1
  if a.getType ≠ .minval && b.getType = .minval then return 1
  if a.getType ≠ .maxval && b.getType = .maxval then return -1
  if a.isPtype && !b.isPtype then return 1
  else if !a.isPtype && b.isPtype then return -1
  if a.getType ≠ b.getType then
    return derivedCmp a.getType.toNat b.getType.toNat
  match a, b with
  | .null, .null | .minval, .minval | .maxval, .maxval => return 0
  | .bool x, .bool y => return derivedCmp x.toNat y.toNat
  | .num x, .num y => return derivedCmp x.value y.value
  | .str x, .str y => return datumStringCompare x y
  | .array xs, .array ys => v113CmpArray xs ys
  | .object pairs, .object rhsPairs =>
      let asObject ← if a.isPtype then a.pseudoComparesAsObj else pure true
      if !asObject then
        let lhsType ← a.getReqlType
        let rhsType ← b.getReqlType
        if lhsType ≠ rhsType then
          return derivedCmp lhsType rhsType
        -- `pseudo_cmp(v1_13, rhs)` of an object: only a time is comparable
        if lhsType = timeString then
          match fieldIndex pairs epochTimeKey with
          | some index =>
              match ← b.getField epochTimeKey .throw with
              | some rhsTime => v113CmpField pairs index rhsTime
              | none => throw .unreachable
          | none => throw (.noAttribute epochTimeKey a)
        else
          let typeName ← a.getTypeName .no
          throw (.incomparableType typeName)
      else v113CmpObject pairs rhsPairs
  | _, _ => throw .unreachable

def v113CmpArray : List Datum → List Datum → Except Error Int
  | [], [] => pure 0
  | [], _ :: _ => pure (-1)
  | _ :: _, [] => pure 1
  | x :: xs, y :: ys => do
      let cmpval ← v113Cmp x y
      if cmpval ≠ 0 then return cmpval
      v113CmpArray xs ys

def v113CmpObject :
    List (List UInt8 × Datum) → List (List UInt8 × Datum) → Except Error Int
  | (key, value) :: pairs, (rhsKey, rhsValue) :: rhsPairs => do
      let keyCmpval := datumStringCompare key rhsKey
      if keyCmpval ≠ 0 then return keyCmpval
      let valCmpval ← v113Cmp value rhsValue
      if valCmpval ≠ 0 then return valCmpval
      v113CmpObject pairs rhsPairs
  | _ :: _, [] => pure 1
  | [], _ :: _ => pure (-1)
  | [], [] => pure 0

def v113CmpField : List (List UInt8 × Datum) → Nat → Datum → Except Error Int
  | (_, value) :: _, 0, rhs => v113Cmp value rhs
  | _ :: pairs, index + 1, rhs => v113CmpField pairs index rhs
  | [], _, _ => throw .unreachable

end

/-- `datum_t::cmp`. -/
def cmp (version : ReqlVersion) (a b : Datum) : Except Error Int :=
  match version with
  | .v1_13 => v113Cmp a b
  | .v1_14 | .v1_16 | .v2_0 | .v2_1 => modernCmp a b

/-- Every version from `v1_14` on compares with `modern_cmp`. -/
theorem cmp_of_ne_v113 {version : ReqlVersion} (modern : version ≠ .v1_13) (a b : Datum) :
    cmp version a b = modernCmp a b := by
  cases version <;> first | exact absurd rfl modern | rfl

/-! ## Which scheme orders a pair

A binary value always compares as a pseudotype; a geometry object and a plain object
(one without `$reql_type$`) never do.  Against each other the three are therefore
ordered by their type names for sorting, and only two plain-or-geometry objects fall
through to the object loop. -/

theorem comparesAsPtype_binary (data : List UInt8) :
    (Datum.binary data).comparesAsPtype = .ok true := by
  simp [Datum.comparesAsPtype, Datum.isPtype, Datum.pseudoComparesAsObj, Datum.getReqlType]
  decide

theorem comparesAsPtype_plain {pairs : List (List UInt8 × Datum)}
    (plain : fieldOf pairs reqlTypeString = none) :
    (Datum.object pairs).comparesAsPtype = .ok false := by
  simp [Datum.comparesAsPtype, Datum.isPtype, plain]
  rfl

theorem comparesAsPtype_geometry {pairs : List (List UInt8 × Datum)}
    (geometry : fieldOf pairs reqlTypeString = some (.str geometryString)) :
    (Datum.object pairs).comparesAsPtype = .ok false := by
  simp [Datum.comparesAsPtype, Datum.isPtype, Datum.pseudoComparesAsObj, Datum.getReqlType,
    geometry]
  rfl

theorem getTypeName_binary (data : List UInt8) (forSorting : NameForSorting) :
    (Datum.binary data).getTypeName forSorting = .ok (ascii "PTYPE<BINARY>") := by
  simp [Datum.getTypeName, Datum.isPtype, Datum.getReqlType]
  rfl

theorem getTypeName_plain {pairs : List (List UInt8 × Datum)}
    (plain : fieldOf pairs reqlTypeString = none) (forSorting : NameForSorting) :
    (Datum.object pairs).getTypeName forSorting = .ok (ascii "OBJECT") := by
  simp [Datum.getTypeName, Datum.isPtype, plain, Datum.getType, rawTypeName]
  rfl

theorem getTypeName_geometry {pairs : List (List UInt8 × Datum)}
    (geometry : fieldOf pairs reqlTypeString = some (.str geometryString))
    (forSorting : NameForSorting) :
    (Datum.object pairs).getTypeName forSorting = .ok (ascii "PTYPE<GEOMETRY>") := by
  simp [Datum.getTypeName, Datum.isPtype, Datum.getReqlType, geometry]
  rfl

/-- When exactly one side compares as a pseudotype, `modern_cmp` orders by the type names
for sorting. -/
theorem modernCmp_of_one_ptype {a b : Datum} {lhsPtype rhsPtype : Bool}
    (lhsTest : a.comparesAsPtype = .ok lhsPtype) (rhsTest : b.comparesAsPtype = .ok rhsPtype)
    (exactlyOne : lhsPtype ≠ rhsPtype) :
    modernCmp a b = (do
      let lhsName ← a.getTypeName .yes
      let rhsName ← b.getTypeName .yes
      return derivedCmp lhsName rhsName) := by
  unfold modernCmp
  rw [lhsTest, rhsTest]
  cases lhsPtype <;> cases rhsPtype <;> simp_all <;> rfl

/-- Two pseudotypes of different `$reql_type$` are ordered by their types. -/
theorem modernCmp_of_reqlType_ne {a b : Datum} (lhsTest : a.comparesAsPtype = .ok true)
    (rhsTest : b.comparesAsPtype = .ok true) {lhsType rhsType : List UInt8}
    (lhsReql : a.getReqlType = .ok lhsType) (rhsReql : b.getReqlType = .ok rhsType)
    (differ : lhsType ≠ rhsType) :
    modernCmp a b = .ok (derivedCmp lhsType rhsType) := by
  unfold modernCmp
  simp only [lhsTest, rhsTest, lhsReql, rhsReql]
  simp [bind, Except.bind, differ]
  rfl

/-- When neither side compares as a pseudotype, different types are ordered by their
enumerators. -/
theorem modernCmp_of_getType_ne {a b : Datum} (lhsTest : a.comparesAsPtype = .ok false)
    (rhsTest : b.comparesAsPtype = .ok false) (differ : a.getType ≠ b.getType) :
    modernCmp a b = .ok (derivedCmp a.getType.toNat b.getType.toNat) := by
  unfold modernCmp
  simp only [lhsTest, rhsTest]
  simp [bind, Except.bind, differ]
  rfl

/-- `modernCmpField` compares the value at the index. -/
theorem modernCmpField_eq : ∀ {pairs : List (List UInt8 × Datum)} {index : Nat} {value : Datum},
    pairs[index]?.map Prod.snd = some value → ∀ rhs, modernCmpField pairs index rhs = modernCmp value rhs
  | [], _, _, found, _ => by simp at found
  | (_, value) :: _, 0, _, found, rhs => by
      simp only [List.getElem?_cons_zero, Option.map_some, Option.some.injEq] at found
      subst found
      simp [modernCmpField]
  | _ :: pairs, index + 1, _, found, rhs => by
      simp only [modernCmpField]
      exact modernCmpField_eq (by simpa using found) rhs

/-- Every plain object sorts below every binary value (`OBJECT < PTYPE<BINARY>`). -/
theorem modernCmp_plain_binary {pairs : List (List UInt8 × Datum)}
    (plain : fieldOf pairs reqlTypeString = none) (data : List UInt8) :
    modernCmp (.object pairs) (.binary data) = .ok (-1) := by
  rw [modernCmp_of_one_ptype (comparesAsPtype_plain plain) (comparesAsPtype_binary data)
    Bool.false_ne_true, getTypeName_plain plain, getTypeName_binary]
  decide

/-- Every binary value sorts below every geometry value
(`PTYPE<BINARY> < PTYPE<GEOMETRY>`), although geometry is otherwise an object. -/
theorem modernCmp_binary_geometry (data : List UInt8) {pairs : List (List UInt8 × Datum)}
    (geometry : fieldOf pairs reqlTypeString = some (.str geometryString)) :
    modernCmp (.binary data) (.object pairs) = .ok (-1) := by
  rw [modernCmp_of_one_ptype (comparesAsPtype_binary data) (comparesAsPtype_geometry geometry)
    (by decide), getTypeName_binary, getTypeName_geometry geometry]
  decide

/-- `r.point(0, 0)`. -/
def originPoint : Datum :=
  .object [(reqlTypeString, .str geometryString),
    (ascii "coordinates", .array [.num ⟨0⟩, .num ⟨0⟩]), (ascii "type", .str (ascii "Point"))]

/-- Compared as objects, the point's first key `$reql_type$` sorts below `a`, so the point
sorts below `{"a": null}`; with the two results above this is a cycle, and `cmp` is not
transitive. -/
theorem cmp_point_plain_binary_cycle :
    (cmp .v2_1 originPoint (.object [(ascii "a", .null)])).map Int.sign = .ok (-1) ∧
    (cmp .v2_1 (.object [(ascii "a", .null)]) (.binary [])).map Int.sign = .ok (-1) ∧
    (cmp .v2_1 (.binary []) originPoint).map Int.sign = .ok (-1) ∧
    (cmp .v2_1 originPoint (.binary [])).map Int.sign = .ok 1 := by
  decide +kernel

/-- In `v1_13_cmp` two binary values pass every test before the switch on the type and
reach its `unreachable()`. -/
theorem v113Cmp_binary_binary (data rhsData : List UInt8) :
    v113Cmp (.binary data) (.binary rhsData) = .error .unreachable := by
  unfold v113Cmp
  simp [Datum.getType, Datum.isPtype]
  rfl

end Ql
end RethinkDB
