import RethinkDB.Foundations.Binary64
import RethinkDB.Foundations.Lexicographic
import RethinkDB.Foundations.BinarySearch

/-!
# ReQL datums

A `datum_t` is one of the JSON-like values of ReQL, the two extrema `r.minval` and
`r.maxval`, or a binary string.  Strings and binaries are `datum_string_t`: byte strings
that may hold NUL.  An object is a sequence of pairs in strictly increasing key order,
whether it sits in a `std::map` or in a serialized buffer; `get_field` relies on that
order for its binary search.

Pseudotypes are objects with a `$reql_type$` field, plus the binary type, which has its
own representation.  This module models the accessors the comparison and the key
encodings use: the type and its enumerator value, the type names, `get_field` with its
binary search, `is_ptype`, `get_reql_type` and `pseudo_compares_as_obj`, each with the
errors it raises.  Its results say what `get_field` finds in a well-formed object.
-/

namespace RethinkDB
namespace Ql

/-- The bytes of an ASCII string constant of the source. -/
def ascii (text : String) : List UInt8 := text.toList.map fun c => c.toNat.toUInt8

/-- A datum.  The uninitialized `datum_t()` is not a value; where the source returns it
(a missing field) the model returns `none`. -/
inductive Datum where
  | minval
  | maxval
  | null
  | bool (value : Bool)
  | num (value : Binary64)
  | str (value : List UInt8)
  | binary (value : List UInt8)
  | array (elements : List Datum)
  | object (pairs : List (List UInt8 × Datum))
  deriving Repr

namespace Datum

/-! ## Decidable equality

The derived handler does not cover a type nested through pairs, so equality is decided
by a structural comparison. -/

mutual

/-- Structural equality test. -/
def beq : Datum → Datum → Bool
  | .minval, .minval | .maxval, .maxval | .null, .null => true
  | .bool x, .bool y => x == y
  | .num x, .num y => x == y
  | .str x, .str y | .binary x, .binary y => x == y
  | .array xs, .array ys => beqList xs ys
  | .object ps, .object qs => beqPairs ps qs
  | _, _ => false

def beqList : List Datum → List Datum → Bool
  | [], [] => true
  | x :: xs, y :: ys => x.beq y && beqList xs ys
  | _, _ => false

def beqPairs : List (List UInt8 × Datum) → List (List UInt8 × Datum) → Bool
  | [], [] => true
  | (k, v) :: ps, (k', v') :: qs => k == k' && v.beq v' && beqPairs ps qs
  | _, _ => false

end

mutual

theorem eq_of_beq : (a b : Datum) → a.beq b = true → a = b
  | a, b, equal => by
      cases a <;> cases b <;> simp_all [beq]
      · exact eq_of_beqList _ _ equal
      · exact eq_of_beqPairs _ _ equal

theorem eq_of_beqList : (xs ys : List Datum) → beqList xs ys = true → xs = ys
  | [], [], _ => rfl
  | x :: xs, y :: ys, equal => by
      simp only [beqList, Bool.and_eq_true] at equal
      rw [eq_of_beq x y equal.1, eq_of_beqList xs ys equal.2]
  | [], _ :: _, equal | _ :: _, [], equal => by simp [beqList] at equal

theorem eq_of_beqPairs :
    (ps qs : List (List UInt8 × Datum)) → beqPairs ps qs = true → ps = qs
  | [], [], _ => rfl
  | (k, v) :: ps, (k', v') :: qs, equal => by
      simp only [beqPairs, Bool.and_eq_true, beq_iff_eq] at equal
      rw [equal.1.1, eq_of_beq v v' equal.1.2, eq_of_beqPairs ps qs equal.2]
  | [], _ :: _, equal | _ :: _, [], equal => by simp [beqPairs] at equal

end

mutual

theorem beq_self : (a : Datum) → a.beq a = true
  | .minval | .maxval | .null => rfl
  | .bool _ | .num _ | .str _ | .binary _ => by simp [beq]
  | .array xs => by simpa [beq] using beqList_self xs
  | .object ps => by simpa [beq] using beqPairs_self ps

theorem beqList_self : (xs : List Datum) → beqList xs xs = true
  | [] => rfl
  | x :: xs => by simp [beqList, beq_self x, beqList_self xs]

theorem beqPairs_self : (ps : List (List UInt8 × Datum)) → beqPairs ps ps = true
  | [] => rfl
  | (k, v) :: ps => by simp [beqPairs, beq_self v, beqPairs_self ps]

end

instance : DecidableEq Datum := fun a b =>
  decidable_of_iff (a.beq b = true) ⟨eq_of_beq a b, fun same => same ▸ beq_self a⟩

end Datum

/-! ## Types and their names -/

/-- `datum_t::type_t`.  `UNINITIALIZED` is left out: no datum value has it. -/
inductive TypeT where
  | minval
  | rArray
  | rBinary
  | rBool
  | rNull
  | rNum
  | rObject
  | rStr
  | maxval
  deriving DecidableEq, Repr

/-- The enumerator's value; `derived_cmp` on types compares these. -/
def TypeT.toNat : TypeT → Nat
  | minval => 1
  | rArray => 2
  | rBinary => 3
  | rBool => 4
  | rNull => 5
  | rNum => 6
  | rObject => 7
  | rStr => 8
  | maxval => 9

theorem TypeT.toNat_injective {t t' : TypeT} (same : t.toNat = t'.toNat) : t = t' := by
  cases t <;> cases t' <;> first | rfl | cases same

/-- `datum_t::get_type`. -/
def Datum.getType : Datum → TypeT
  | .minval => .minval
  | .maxval => .maxval
  | .null => .rNull
  | .bool _ => .rBool
  | .num _ => .rNum
  | .str _ => .rStr
  | .binary _ => .rBinary
  | .array _ => .rArray
  | .object _ => .rObject

/-- `name_for_sorting_t`. -/
inductive NameForSorting where
  | no
  | yes
  deriving DecidableEq, Repr

/-- The string constants of `pseudo::`. -/
def reqlTypeString : List UInt8 := ascii "$reql_type$"
def binaryString : List UInt8 := ascii "BINARY"
def geometryString : List UInt8 := ascii "GEOMETRY"
def timeString : List UInt8 := ascii "TIME"
def epochTimeKey : List UInt8 := ascii "epoch_time"

/-- `raw_type_name`: for sorting, the extrema get a first byte below and above every
other name. -/
def rawTypeName : TypeT → NameForSorting → List UInt8
  | .minval, .no => ascii "MINVAL"
  | .minval, .yes => 0x01 :: ascii "MINVAL"
  | .rNull, _ => ascii "NULL"
  | .rBinary, _ => ascii "PTYPE<" ++ binaryString ++ ascii ">"
  | .rBool, _ => ascii "BOOL"
  | .rNum, _ => ascii "NUMBER"
  | .rStr, _ => ascii "STRING"
  | .rArray, _ => ascii "ARRAY"
  | .rObject, _ => ascii "OBJECT"
  | .maxval, .no => ascii "MAXVAL"
  | .maxval, .yes => 0xFF :: ascii "MAXVAL"

/-! ## Strings -/

/-- `datum_string_t::compare`: `memcmp` over the common length, then the lengths. -/
def datumStringCompare (a b : List UInt8) : Int :=
  let contentCompare := Bytes.memcmp a b (min a.length b.length)
  if contentCompare = 0 then
    if a.length < b.length then -1 else if a.length > b.length then 1 else 0
  else contentCompare

/-- Only the sign of the comparison is specified, and it is the lexicographic one. -/
theorem datumStringCompare_sign (a b : List UInt8) :
    (datumStringCompare a b).sign = Bytes.lexSign a b := by
  apply Bytes.sign_memcmp_then_length
  split_ifs <;> first | rfl | omega

theorem datumStringCompare_eq_zero_iff {a b : List UInt8} :
    datumStringCompare a b = 0 ↔ a = b := by
  rw [← Int.sign_eq_zero_iff_zero, datumStringCompare_sign, Bytes.lexSign_eq_zero_iff]

theorem datumStringCompare_neg_iff {a b : List UInt8} :
    datumStringCompare a b < 0 ↔ a < b := by
  rw [← Int.sign_eq_neg_one_iff_neg, datumStringCompare_sign, Bytes.lexSign_eq_neg_one_iff]

theorem datumStringCompare_pos_iff {a b : List UInt8} :
    0 < datumStringCompare a b ↔ b < a := by
  rw [← Int.sign_eq_one_iff_pos, datumStringCompare_sign, Bytes.lexSign_eq_one_iff]

/-! ## Errors -/

/-- `throw_bool_t`. -/
inductive ThrowBool where
  | throw
  | noThrow
  deriving DecidableEq, Repr

/-- The errors of the accessors, the comparison and `merge`, with what their messages print. -/
inductive Error where
  /-- `check_type`: "Expected type %s but found %s." -/
  | expectedType (desired : TypeT) (found : Datum)
  /-- `get_reql_type`: "Error: Field `%s` must be a string (got `%s` of type %s):\n%s" -/
  | reqlTypeNotString (field : Datum) (object : Datum)
  /-- `get_field`: "No attribute `%s` in object:\n%s" -/
  | noAttribute (key : List UInt8) (object : Datum)
  /-- `pseudo_cmp`: "Incomparable type %s." -/
  | incomparableType (typeName : List UInt8)
  /-- `print_primary_internal`: "Primary keys must be either a number, string, bool,
  pseudotype or array (got type %s):\n%s" -/
  | primaryKeyType (key : Datum)
  /-- `array_to_str_key`: "Array keys can only contain numbers, strings, bools,
  pseudotypes, or arrays (got %s of type %s)." -/
  | arrayKeyType (item : Datum)
  /-- `pt_to_str_key`: "Cannot use a geometry value as a key value in a primary or
  non-geospatial secondary index." -/
  | geometryKey
  /-- `pt_to_str_key`: "Cannot use pseudotype %s as a primary or secondary key value ." -/
  | pseudotypeKey (typeName : List UInt8)
  /-- `print_primary`: "Primary key too long (max %zu characters): %s" -/
  | primaryKeyTooLong (key : Datum)
  /-- `print_secondary`: "Secondary keys must be a number, string, bool, pseudotype, or
  array (got type %s):\n%s" -/
  | secondaryKeyType (key : Datum)
  /-- `truncated_secondary`: "Secondary keys must be a number, string, bool, pseudotype,
  or array (got %s of type %s)." -/
  | truncatedSecondaryKeyType (key : Datum)
  /-- `truncated_secondary`: "Cannot use `r.minval` or `r.maxval` in a secondary index
  key." -/
  | extremaSecondaryKey
  /-- `compose_secondary`: "Primary key too long (max %zu characters): %s" -/
  | primaryKeyStringTooLong (key : List UInt8)
  /-- `check_str_validity`: "String `%.20s` (truncated) contains NULL byte at offset %zu." -/
  | nullByte (str : List UInt8)
  /-- `merge_term_t::obj_eval`: "Cannot merge objects of type `%s`." -/
  | cannotMerge (typeName : List UInt8)
  /-- `resolve_insert_conflict`: "Duplicate primary key `%s`:\n%s\n%s" -/
  | duplicatePrimaryKey (primaryKey : List UInt8) (oldRow insertRow : Datum)
  /-- A failed `r_sanity_check` or `guarantee`. -/
  | sanityCheck
  /-- `unreachable()`. -/
  | unreachable
  deriving DecidableEq, Repr

/-! ## Fields -/

/-- The binary search of `get_field` over the pairs of an object: the index of the pair
whose key compares equal to `key`. -/
def fieldIndex (pairs : List (List UInt8 × Datum)) (key : List UInt8) : Option Nat :=
  BinarySearch.find (fun pair => datumStringCompare key pair.1) pairs

/-- The value `get_field` finds, before it decides whether a miss throws. -/
def fieldOf (pairs : List (List UInt8 × Datum)) (key : List UInt8) : Option Datum :=
  (fieldIndex pairs key).bind fun i => pairs[i]?.map Prod.snd

/-- `datum_t::get_field`.  Only an object has fields; a miss is an empty datum, `none`,
or the error of `THROW`. -/
def Datum.getField (d : Datum) (key : List UInt8) (throwBool : ThrowBool) :
    Except Error (Option Datum) :=
  match d with
  | .object pairs =>
      match fieldOf pairs key, throwBool with
      | some value, _ => pure (some value)
      | none, .throw => throw (.noAttribute key d)
      | none, .noThrow => pure none
  | _ => throw (.expectedType .rObject d)

/-- `datum_t::is_ptype()`. -/
def Datum.isPtype : Datum → Bool
  | .binary _ => true
  | .object pairs => (fieldOf pairs reqlTypeString).isSome
  | _ => false

/-- `datum_t::get_reql_type`. -/
def Datum.getReqlType (d : Datum) : Except Error (List UInt8) :=
  if d.isPtype then
    match d with
    | .binary _ => pure binaryString
    | .object pairs =>
        match fieldOf pairs reqlTypeString with
        | some (.str reqlType) => pure reqlType
        | some field => throw (.reqlTypeNotString field d)
        | none => throw .sanityCheck
    | _ => throw .sanityCheck
  else throw .sanityCheck

/-- `datum_t::get_type_name`. -/
def Datum.getTypeName (d : Datum) (forSorting : NameForSorting) : Except Error (List UInt8) :=
  if d.isPtype then do
    let reqlType ← d.getReqlType
    return ascii "PTYPE<" ++ reqlType ++ ascii ">"
  else pure (rawTypeName d.getType forSorting)

/-- `datum_t::pseudo_compares_as_obj`: geometry is compared by its object representation. -/
def Datum.pseudoComparesAsObj (d : Datum) : Except Error Bool :=
  if d.isPtype then do
    let reqlType ← d.getReqlType
    return reqlType == geometryString
  else throw .sanityCheck

/-- `datum_t::as_binary`. -/
def Datum.asBinary : Datum → Except Error (List UInt8)
  | .binary data => pure data
  | d => throw (.expectedType .rBinary d)

/-! ## Well-formed objects

An object's keys are strictly increasing.  Under that order the binary search of
`get_field` finds exactly the pair with the key, which is all the comparison and the
key encodings need to know about it. -/

/-- The keys of the pairs are strictly increasing. -/
def SortedKeys (pairs : List (List UInt8 × Datum)) : Prop :=
  pairs.Pairwise fun p q => p.1 < q.1

instance : DecidablePred SortedKeys := fun pairs =>
  inferInstanceAs (Decidable (pairs.Pairwise fun p q => p.1 < q.1))

theorem sortedKeys_probe_ordered {pairs : List (List UInt8 × Datum)} (sorted : SortedKeys pairs)
    (key : List UInt8) :
    BinarySearch.Ordered (fun pair => datumStringCompare key pair.1) pairs := by
  refine List.Pairwise.imp (fun {p q} before nonneg => ?_) sorted
  -- `key ≥ q.1 > p.1`, so `key > p.1`.
  have notBelow : ¬key < q.1 := fun below =>
    absurd nonneg (not_le.mpr (datumStringCompare_neg_iff.mpr below))
  rcases Bytes.lt_trichotomy key q.1 with below | same | above
  · exact absurd below notBelow
  · exact datumStringCompare_pos_iff.mpr (same ▸ before)
  · exact datumStringCompare_pos_iff.mpr (List.lt_trans before above)

/-- In a well-formed object, `get_field`'s search finds exactly the pairs with the key. -/
theorem fieldOf_eq_some_iff {pairs : List (List UInt8 × Datum)} (sorted : SortedKeys pairs)
    {key : List UInt8} {value : Datum} :
    fieldOf pairs key = some value ↔ (key, value) ∈ pairs := by
  have ordered := sortedKeys_probe_ordered sorted key
  constructor
  · intro found
    obtain ⟨i, atIndex, pairAt⟩ := Option.bind_eq_some_iff.mp found
    obtain ⟨⟨k, v⟩, atI, rfl⟩ := Option.map_eq_some_iff.mp pairAt
    obtain ⟨pair, atI', zero⟩ := (BinarySearch.find_eq_some_iff ordered).mp atIndex
    rw [atI] at atI'
    cases atI'
    have : key = k := datumStringCompare_eq_zero_iff.mp zero
    subst this
    exact List.mem_of_getElem? atI
  · intro member
    obtain ⟨i, bound, atI⟩ := List.getElem_of_mem member
    have found : fieldIndex pairs key = some i :=
      (BinarySearch.find_eq_some_iff ordered).mpr
        ⟨_, List.getElem?_eq_getElem bound, by simp [atI, datumStringCompare_eq_zero_iff]⟩
    simp [fieldOf, found, List.getElem?_eq_getElem bound, atI]

theorem fieldOf_eq_none_iff {pairs : List (List UInt8 × Datum)} (sorted : SortedKeys pairs)
    {key : List UInt8} : fieldOf pairs key = none ↔ ∀ value, (key, value) ∉ pairs := by
  constructor
  · intro missing value member
    rw [← fieldOf_eq_some_iff sorted] at member
    simp [missing] at member
  · intro absent
    cases found : fieldOf pairs key with
    | none => rfl
    | some value => exact absurd ((fieldOf_eq_some_iff sorted).mp found) (absent value)

end Ql
end RethinkDB
