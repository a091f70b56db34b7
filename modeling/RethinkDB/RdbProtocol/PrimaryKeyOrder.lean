import RethinkDB.RdbProtocol.PrimaryKey

/-!
# Primary keys are ordered like their datums

For valid primary keys, the bytes `print_primary` writes compare as `modern_cmp` compares
the datums.  The argument follows the encoding.

* The first bytes of a key name its kind: `A`, `B`, `N`, `PB`(`INARY:`), `PT`(`IME:`) or
  `S`.  These tags are ordered like the kinds under `modern_cmp`, which for datums of two
  kinds reads only their pseudotype tests, type names and type enumerators, and no tag
  is a prefix of another.
* Within a kind each encoder keeps the order: booleans by one byte, numbers by the
  sixteen hexadecimal digits of the order key of the double, strings bytewise, binary
  values through an escape that is itself an ordered prefix-free code, times by the
  number key of `epoch_time`.
* Array elements are each followed by a NUL byte.  Two different element keys diverge
  before the NUL that ends the shorter one, so the first element that differs decides,
  and an array that is a proper prefix of another comes first.

The separation of element keys and the order are proved by recursion on the datum, the
array case by recursion on the elements.
-/

namespace RethinkDB
namespace Ql

open Bytes Btree

/-! ## Kinds of keys -/

/-- The kinds of valid primary keys, in the order of their tags. -/
inductive KeyKind where
  | array
  | bool
  | num
  | binary
  | time
  | str
  deriving DecidableEq, Repr

namespace KeyKind

/-- The bytes every key of the kind starts with. -/
def tag : KeyKind → List UInt8
  | array => ascii "A"
  | bool => ascii "B"
  | num => ascii "N"
  | binary => ascii "PB"
  | time => ascii "PT"
  | str => ascii "S"

/-- Whether a datum of the kind compares as a pseudotype in `modern_cmp`. -/
def comparesAsPtype : KeyKind → Bool
  | binary | time => true
  | _ => false

/-- The `$reql_type$` of a pseudotype kind. -/
def reqlType : KeyKind → List UInt8
  | binary => binaryString
  | time => timeString
  | _ => []

/-- The type name for sorting. -/
def typeName : KeyKind → List UInt8
  | array => ascii "ARRAY"
  | bool => ascii "BOOL"
  | num => ascii "NUMBER"
  | binary => ascii "PTYPE<BINARY>"
  | time => ascii "PTYPE<TIME>"
  | str => ascii "STRING"

/-- The `type_t` of a datum of the kind; a time is an object. -/
def type : KeyKind → TypeT
  | array => .rArray
  | bool => .rBool
  | num => .rNum
  | binary => .rBinary
  | time => .rObject
  | str => .rStr

/-- `modern_cmp` of datums of two different kinds, which decides before their contents. -/
def cmp (k k' : KeyKind) : Int :=
  if k.comparesAsPtype && k'.comparesAsPtype then derivedCmp k.reqlType k'.reqlType
  else if k.comparesAsPtype || k'.comparesAsPtype then derivedCmp k.typeName k'.typeName
  else derivedCmp k.type.toNat k'.type.toNat

/-- The tags are ordered like the kinds. -/
theorem cmp_sign {k k' : KeyKind} (differ : k ≠ k') : (cmp k k').sign = lexSign k.tag k'.tag := by
  cases k <;> cases k' <;> first | exact absurd rfl differ | decide

theorem reqlType_ne {k k' : KeyKind} (ptype : k.comparesAsPtype = true)
    (ptype' : k'.comparesAsPtype = true) (differ : k ≠ k') : k.reqlType ≠ k'.reqlType := by
  cases k <;> cases k' <;>
    first | exact absurd rfl differ | decide | simp [comparesAsPtype] at ptype ptype'

theorem type_ne {k k' : KeyKind} (differ : k ≠ k') : k.type ≠ k'.type := by
  cases k <;> cases k' <;> first | exact absurd rfl differ | decide

theorem tag_not_isPrefix {k k' : KeyKind} (differ : k ≠ k') : ¬k.tag <+: k'.tag := by
  cases k <;> cases k' <;> first | exact absurd rfl differ | decide

theorem tag_diverge {k k' : KeyKind} (differ : k ≠ k') : Diverge k.tag k'.tag :=
  diverge_of_not_isPrefix (tag_not_isPrefix differ) (tag_not_isPrefix (Ne.symm differ))

/-- Every tag lies strictly between the key of `r.minval` and the first byte of the key
of `r.maxval`, and diverges from both. -/
theorem tag_between (k : KeyKind) :
    (¬[0] <+: k.tag ∧ ¬k.tag <+: [0] ∧ lexSign [0] k.tag = -1) ∧
      (¬[0x7F] <+: k.tag ∧ ¬k.tag <+: [0x7F] ∧ lexSign k.tag [0x7F] = -1) := by
  cases k <;> decide

end KeyKind

/-- The kind of a datum; an object that is a valid key is a time. -/
def Datum.keyKind : Datum → KeyKind
  | .array _ => .array
  | .bool _ => .bool
  | .num _ => .num
  | .binary _ => .binary
  | .str _ => .str
  | .object _ | .minval | .maxval | .null => .time

/-! ## What `modern_cmp` reads of a valid key -/

section Time

variable {pairs : List (List UInt8 × Datum)}

theorem isPtype_of_isTime (time : isTime pairs = true) : (Datum.object pairs).isPtype = true := by
  simp [Datum.isPtype, (isTime_fields time).2.1]

theorem getReqlType_of_isTime (time : isTime pairs = true) :
    (Datum.object pairs).getReqlType = .ok timeString := by
  simp [Datum.getReqlType, isPtype_of_isTime time, (isTime_fields time).2.1]
  rfl

end Time

variable {d : Datum}

theorem comparesAsPtype_of_isPrimaryKey (valid : d.isPrimaryKey = true) :
    d.comparesAsPtype = .ok d.keyKind.comparesAsPtype := by
  cases d with
  | binary data => exact comparesAsPtype_binary data
  | object pairs =>
      have time : isTime pairs = true := by simpa [Datum.isPrimaryKey] using valid
      simp [Datum.comparesAsPtype, Datum.pseudoComparesAsObj, isPtype_of_isTime time,
        getReqlType_of_isTime time, Datum.keyKind, KeyKind.comparesAsPtype]
      decide
  | minval | maxval | null => simp [Datum.isPrimaryKey] at valid
  | _ => rfl

theorem getReqlType_of_isPrimaryKey (valid : d.isPrimaryKey = true)
    (ptype : d.keyKind.comparesAsPtype = true) : d.getReqlType = .ok d.keyKind.reqlType := by
  cases d with
  | binary data => rfl
  | object pairs =>
      exact getReqlType_of_isTime (by simpa [Datum.isPrimaryKey] using valid)
  | _ => simp [Datum.keyKind, KeyKind.comparesAsPtype, Datum.isPrimaryKey] at ptype valid

theorem getTypeName_of_isPrimaryKey (valid : d.isPrimaryKey = true) :
    d.getTypeName .yes = .ok d.keyKind.typeName := by
  cases d with
  | binary data => exact getTypeName_binary data .yes
  | object pairs =>
      have time : isTime pairs = true := by simpa [Datum.isPrimaryKey] using valid
      simp [Datum.getTypeName, isPtype_of_isTime time, getReqlType_of_isTime time]
      rfl
  | minval | maxval | null => simp [Datum.isPrimaryKey] at valid
  | _ => rfl

theorem getType_of_isPrimaryKey (valid : d.isPrimaryKey = true) : d.getType = d.keyKind.type := by
  cases d with
  | minval | maxval | null => simp [Datum.isPrimaryKey] at valid
  | _ => rfl

/-- A valid key starts with the tag of its kind. -/
theorem keyOf_eq_tag_append (valid : d.isPrimaryKey = true) :
    ∃ rest, keyOf d = d.keyKind.tag ++ rest := by
  cases d with
  | num x => exact ⟨_, rfl⟩
  | str s => exact ⟨s, rfl⟩
  | bool b => exact ⟨_, rfl⟩
  | binary data => exact ⟨ascii "INARY:" ++ data.flatMap escapeByte, rfl⟩
  | array items => exact ⟨itemsKey items, rfl⟩
  | object pairs =>
      obtain ⟨-, -, epochTime, epoch, -⟩ :=
        isTime_fields (by simpa [Datum.isPrimaryKey] using valid)
      exact ⟨ascii "IME:" ++ numberKey epochTime, by simp [keyOf, epoch]; rfl⟩
  | minval | maxval | null => simp [Datum.isPrimaryKey] at valid

/-! ## Datums of different kinds -/

section Kinds

variable {a b : Datum} (validA : a.isPrimaryKey = true) (validB : b.isPrimaryKey = true)
include validA validB

/-- Valid keys of different kinds are ordered by their kinds. -/
theorem modernCmp_of_keyKind_ne (differ : a.keyKind ≠ b.keyKind) :
    modernCmp a b = .ok (KeyKind.cmp a.keyKind b.keyKind) := by
  have lhsTest := comparesAsPtype_of_isPrimaryKey validA
  have rhsTest := comparesAsPtype_of_isPrimaryKey validB
  unfold KeyKind.cmp
  cases lhsPtype : a.keyKind.comparesAsPtype <;> cases rhsPtype : b.keyKind.comparesAsPtype <;>
    rw [lhsPtype] at lhsTest <;> rw [rhsPtype] at rhsTest
  · -- Neither is a pseudotype: the type enumerators decide.
    have typeNe : a.getType ≠ b.getType := by
      rw [getType_of_isPrimaryKey validA, getType_of_isPrimaryKey validB]
      exact KeyKind.type_ne differ
    rw [modernCmp_of_getType_ne lhsTest rhsTest typeNe, getType_of_isPrimaryKey validA,
      getType_of_isPrimaryKey validB]
    rfl
  all_goals first
    | -- Both are: their `$reql_type$`s decide.
      rw [modernCmp_of_reqlType_ne lhsTest rhsTest (getReqlType_of_isPrimaryKey validA lhsPtype)
        (getReqlType_of_isPrimaryKey validB rhsPtype) (KeyKind.reqlType_ne lhsPtype rhsPtype differ)]
      rfl
    | -- Exactly one is: the type names for sorting decide.
      rw [modernCmp_of_one_ptype lhsTest rhsTest (by decide), getTypeName_of_isPrimaryKey validA,
        getTypeName_of_isPrimaryKey validB]
      rfl

theorem lexSign_keyOf_of_keyKind_ne (differ : a.keyKind ≠ b.keyKind) :
    lexSign (keyOf a) (keyOf b) = (KeyKind.cmp a.keyKind b.keyKind).sign := by
  obtain ⟨rest, keyA⟩ := keyOf_eq_tag_append validA
  obtain ⟨rest', keyB⟩ := keyOf_eq_tag_append validB
  rw [keyA, keyB, (KeyKind.tag_diverge differ).lexSign_append, KeyKind.cmp_sign differ]

theorem keyOf_diverge_of_keyKind_ne (differ : a.keyKind ≠ b.keyKind) :
    Diverge (keyOf a ++ [0]) (keyOf b ++ [0]) := by
  obtain ⟨rest, keyA⟩ := keyOf_eq_tag_append validA
  obtain ⟨rest', keyB⟩ := keyOf_eq_tag_append validB
  rw [keyA, keyB, List.append_assoc, List.append_assoc]
  exact (KeyKind.tag_diverge differ).append_right _ _

end Kinds

/-! ## Numbers

`num_to_str_key` writes `-0.0` as `0.0`; after that the sixteen digits are the order key
of the double, which orders values, and they fix the double and so the rest of the key. -/

/-- The double `num_to_str_key` writes. -/
def positiveZero (x : Binary64) : Binary64 := if x.value = 0 then x.abs else x

theorem value_positiveZero (x : Binary64) : (positiveZero x).value = x.value := by
  unfold positiveZero
  split_ifs with zero
  · rw [zero, Binary64.value_abs_eq_zero_iff, zero]
  · rfl

theorem positiveZero_not_isNegZero (x : Binary64) : ¬(positiveZero x).IsNegZero := by
  unfold positiveZero
  split_ifs with zero
  · exact Binary64.abs_not_isNegZero x
  · exact fun negZero => zero (Binary64.value_of_isNegZero negZero)

theorem orderKey_lt_sixteen_pow (x : Binary64) : x.orderKey < 16 ^ 16 := by
  have := x.orderKey_lt
  norm_num at this ⊢
  exact this

/-- The number key: `N`, the digits of the order key and the rest. -/
theorem numberKey_eq (x : Binary64) :
    numberKey x = ascii "N" ++ ((Printf.fixedDigits 16 16 (positiveZero x).orderKey).map
      Printf.digitByte ++ (ascii "#" ++ Printf.formatG 20 (positiveZero x))) := by
  simp only [numberKey, Binary64.toNat_flip]
  rw [Printf.formatUnsigned_of_lt (by norm_num) (orderKey_lt_sixteen_pow _)]
  simp [positiveZero, List.append_assoc]

theorem lexSign_numberKey (x y : Binary64) :
    lexSign (numberKey x) (numberKey y) =
      ((positiveZero x).orderKey - (positiveZero y).orderKey : Int).sign := by
  have digits := Printf.lexSign_fixedDigits (by norm_num) (by norm_num)
    (orderKey_lt_sixteen_pow (positiveZero x)) (orderKey_lt_sixteen_pow (positiveZero y))
  rw [numberKey_eq, numberKey_eq, lexSign_append_left, lexSign_append_of_length_eq (by simp)]
  split_ifs with same
  · -- Equal digits: the same double, so the same key.
    rw [same, lexSign_eq_zero_iff.mpr rfl, eq_comm, Int.sign_eq_zero_iff_zero] at digits
    have : positiveZero x = positiveZero y := Binary64.orderKey_injective (by omega)
    rw [this, lexSign_eq_zero_iff.mpr rfl]
    simp
  · exact digits

/-- `derived_cmp` of the values has the sign of the order keys. -/
theorem derivedCmp_value_sign (x y : Binary64) :
    (derivedCmp x.value y.value).sign =
      ((positiveZero x).orderKey - (positiveZero y).orderKey : Int).sign := by
  rw [← value_positiveZero x, ← value_positiveZero y]
  have notNegZero := positiveZero_not_isNegZero x
  have notNegZero' := positiveZero_not_isNegZero y
  unfold derivedCmp
  split_ifs with same lt
  · rw [Binary64.eq_of_value_eq notNegZero notNegZero' same]
    simp
  · have keys := (Binary64.orderKey_lt_iff_value_lt notNegZero).mpr lt
    have : ((positiveZero x).orderKey - (positiveZero y).orderKey : Int).sign = -1 :=
      Int.sign_eq_neg_one_of_neg (by omega)
    rw [this]
    rfl
  · have gt : (positiveZero y).value < (positiveZero x).value :=
      lt_of_le_of_ne (not_lt.mp lt) (Ne.symm same)
    have keys := (Binary64.orderKey_lt_iff_value_lt notNegZero').mpr gt
    have : ((positiveZero x).orderKey - (positiveZero y).orderKey : Int).sign = 1 :=
      Int.sign_eq_one_of_pos (by omega)
    rw [this]
    rfl

theorem numberKey_diverge {x y : Binary64} (differ : numberKey x ≠ numberKey y) :
    Diverge (numberKey x) (numberKey y) := by
  rw [numberKey_eq, numberKey_eq] at differ ⊢
  have digitsDiffer : (Printf.fixedDigits 16 16 (positiveZero x).orderKey).map Printf.digitByte ≠
      (Printf.fixedDigits 16 16 (positiveZero y).orderKey).map Printf.digitByte := by
    intro same
    have digits := Printf.lexSign_fixedDigits (by norm_num) (by norm_num)
      (orderKey_lt_sixteen_pow (positiveZero x)) (orderKey_lt_sixteen_pow (positiveZero y))
    rw [same, lexSign_eq_zero_iff.mpr rfl, eq_comm, Int.sign_eq_zero_iff_zero] at digits
    have : positiveZero x = positiveZero y := Binary64.orderKey_injective (by omega)
    exact differ (by rw [this])
  exact ((diverge_of_length_eq (by simp) digitsDiffer).append_right _ _).append_left _

theorem modernCmp_num_num (x y : Binary64) :
    modernCmp (.num x) (.num y) = .ok (derivedCmp x.value y.value) := by
  unfold modernCmp
  simp [Datum.comparesAsPtype, Datum.isPtype]
  rfl

/-! ## Times -/

theorem keyOf_time {pairs : List (List UInt8 × Datum)} {epochTime : Binary64}
    (epoch : fieldOf pairs epochTimeKey = some (.num epochTime)) :
    keyOf (.object pairs) = ascii "PTIME:" ++ numberKey epochTime := by
  simp [keyOf, epoch]

/-- Two times compare by their `epoch_time` fields. -/
theorem modernCmp_time_time {pairs pairs' : List (List UInt8 × Datum)}
    (time : isTime pairs = true) (time' : isTime pairs' = true) {epochTime epochTime' : Binary64}
    (epoch : fieldOf pairs epochTimeKey = some (.num epochTime))
    (epoch' : fieldOf pairs' epochTimeKey = some (.num epochTime')) :
    modernCmp (.object pairs) (.object pairs') = .ok (derivedCmp epochTime.value epochTime'.value) := by
  have lhsTest := comparesAsPtype_of_isPrimaryKey (d := .object pairs) (by simpa [Datum.isPrimaryKey])
  have rhsTest := comparesAsPtype_of_isPrimaryKey (d := .object pairs') (by simpa [Datum.isPrimaryKey])
  obtain ⟨index, found, atIndex⟩ : ∃ index, fieldIndex pairs epochTimeKey = some index ∧
      pairs[index]?.map Prod.snd = some (.num epochTime) := by
    simpa [fieldOf, Option.bind_eq_some_iff] using epoch
  unfold modernCmp
  simp only [lhsTest, rhsTest, Datum.keyKind, KeyKind.comparesAsPtype, getReqlType_of_isTime time,
    getReqlType_of_isTime time']
  simp [bind, Except.bind, found, Datum.getField, epoch', pure, Except.pure,
    modernCmpField_eq atIndex, modernCmp_num_num]

/-! ## Strings, binary values and booleans -/

theorem modernCmp_str_str (s s' : List UInt8) :
    modernCmp (.str s) (.str s') = .ok (datumStringCompare s s') := by
  unfold modernCmp
  simp [Datum.comparesAsPtype, Datum.isPtype]
  rfl

theorem modernCmp_binary_binary (data data' : List UInt8) :
    modernCmp (.binary data) (.binary data') = .ok (datumStringCompare data data') := by
  unfold modernCmp
  simp [comparesAsPtype_binary, Datum.getReqlType, Datum.isPtype]
  rfl

theorem modernCmp_bool_bool (x y : Bool) :
    modernCmp (.bool x) (.bool y) = .ok (derivedCmp x.toNat y.toNat) := by
  unfold modernCmp
  simp [Datum.comparesAsPtype, Datum.isPtype]
  rfl

theorem modernCmp_array_array (xs ys : List Datum) :
    modernCmp (.array xs) (.array ys) = modernCmpArray xs ys := by
  unfold modernCmp
  simp [Datum.comparesAsPtype, Datum.isPtype, Datum.getType]

/-- The escape of `binary_to_str_key` keeps the order of bytes. -/
theorem lexSign_escapeByte (x y : UInt8) :
    lexSign (escapeByte x) (escapeByte y) = lexSign [x] [y] := by
  unfold escapeByte
  -- `\x01\x01 < \x01\x02` sit where `\x00 < \x01` sat, below every byte from `\x02` on.
  split_ifs <;> subst_vars <;>
    simp only [lexSign_cons_cons, lexSign_nil_nil, lexSign_nil_cons, lexSign_cons_nil,
      ← UInt8.toNat_inj, UInt8.lt_iff_toNat_lt, UInt8.reduceToNat] at * <;>
    split_ifs <;> first | rfl | omega | contradiction

theorem escapeByte_diverge {x y : UInt8} (differ : x ≠ y) :
    Diverge (escapeByte x) (escapeByte y) := by
  apply diverge_of_not_isPrefix <;> unfold escapeByte <;> split_ifs <;> subst_vars <;>
    simp_all [List.cons_prefix_cons, eq_comm]

theorem escapeByte_ne_nil (b : UInt8) : escapeByte b ≠ [] := by
  unfold escapeByte
  split_ifs <;> simp

theorem zero_not_mem_escapeByte (b : UInt8) : (0 : UInt8) ∉ escapeByte b := by
  unfold escapeByte
  split_ifs with zero one <;> simp [eq_comm, *]

/-- Escaped binary strings compare as the binary strings. -/
theorem lexSign_flatMap_escapeByte (data data' : List UInt8) :
    lexSign (data.flatMap escapeByte) (data'.flatMap escapeByte) = lexSign data data' :=
  lexSign_flatMap lexSign_escapeByte (fun _ _ differ => escapeByte_diverge differ)
    escapeByte_ne_nil data data'

/-! ## Order and separation of keys -/

/-- `modern_cmp` succeeds on the two datums, with the sign of the byte order of their keys. -/
def CmpAgrees (a b : Datum) : Prop :=
  ∃ c, modernCmp a b = .ok c ∧ c.sign = lexSign (keyOf a) (keyOf b)

section SameKind

variable {a b : Datum} (validA : a.isPrimaryKey = true) (validB : b.isPrimaryKey = true)
include validA validB

theorem cmpAgrees_of_keyKind_ne (differ : a.keyKind ≠ b.keyKind) : CmpAgrees a b :=
  ⟨_, modernCmp_of_keyKind_ne validA validB differ,
    (lexSign_keyOf_of_keyKind_ne validA validB differ).symm⟩

end SameKind

theorem cmpAgrees_num (x y : Binary64) : CmpAgrees (.num x) (.num y) :=
  ⟨_, modernCmp_num_num x y, by rw [derivedCmp_value_sign, keyOf, keyOf, lexSign_numberKey]⟩

theorem cmpAgrees_str (s s' : List UInt8) : CmpAgrees (.str s) (.str s') :=
  ⟨_, modernCmp_str_str s s', by rw [datumStringCompare_sign, keyOf, keyOf, lexSign_append_left]⟩

theorem cmpAgrees_binary (data data' : List UInt8) : CmpAgrees (.binary data) (.binary data') :=
  ⟨_, modernCmp_binary_binary data data', by
    rw [datumStringCompare_sign, keyOf, keyOf, lexSign_append_left, lexSign_flatMap_escapeByte]⟩

theorem cmpAgrees_bool (x y : Bool) : CmpAgrees (.bool x) (.bool y) :=
  ⟨_, modernCmp_bool_bool x y, by cases x <;> cases y <;> decide⟩

theorem cmpAgrees_time {pairs pairs' : List (List UInt8 × Datum)} (time : isTime pairs = true)
    (time' : isTime pairs' = true) : CmpAgrees (.object pairs) (.object pairs') := by
  obtain ⟨-, -, epochTime, epoch, -⟩ := isTime_fields time
  obtain ⟨-, -, epochTime', epoch', -⟩ := isTime_fields time'
  refine ⟨_, modernCmp_time_time time time' epoch epoch', ?_⟩
  rw [keyOf_time epoch, keyOf_time epoch', lexSign_append_left, lexSign_numberKey,
    derivedCmp_value_sign]

mutual

/-- Two different keys of valid primary keys diverge before the NUL byte that would end
either one as an array element. -/
theorem keyOf_separated : ∀ a : Datum, a.isPrimaryKey = true → ∀ b : Datum,
    b.isPrimaryKey = true → keyOf a ≠ keyOf b → Diverge (keyOf a ++ [0]) (keyOf b ++ [0])
  | .array items, validA, b, validB, differ => by
      cases b with
      | array items' =>
          have tails : itemsKey items ≠ itemsKey items' := fun same => differ (by simp [keyOf, same])
          have := itemsKey_separated items (by simpa [Datum.isPrimaryKey] using validA) items'
            (by simpa [Datum.isPrimaryKey] using validB) tails
          simpa [keyOf] using this.append_left (ascii "A")
      | minval | maxval | null => simp [Datum.isPrimaryKey] at validB
      | _ => exact keyOf_diverge_of_keyKind_ne validA validB (by simp [Datum.keyKind])
  | .num x, validA, b, validB, differ => by
      cases b with
      | num y => exact (numberKey_diverge differ).append_right _ _
      | minval | maxval | null => simp [Datum.isPrimaryKey] at validB
      | _ => exact keyOf_diverge_of_keyKind_ne validA validB (by simp [Datum.keyKind])
  | .str s, validA, b, validB, differ => by
      cases b with
      | str s' =>
          -- Strings of a valid key have no NUL byte.
          have tagFree : (0 : UInt8) ∉ ascii "S" := by decide
          have strFree : ∀ {t : List UInt8}, (Datum.str t).isPrimaryKey = true →
              (0 : UInt8) ∉ keyOf (.str t) := by
            intro t valid
            simpa [keyOf, tagFree, Datum.isPrimaryKey] using valid
          exact diverge_append_zero (strFree validA) (strFree validB) differ
      | minval | maxval | null => simp [Datum.isPrimaryKey] at validB
      | _ => exact keyOf_diverge_of_keyKind_ne validA validB (by simp [Datum.keyKind])
  | .binary data, validA, b, validB, differ => by
      cases b with
      | binary data' =>
          have tagFree : (0 : UInt8) ∉ ascii "PBINARY:" := by decide
          apply diverge_append_zero _ _ differ <;>
            simp [keyOf, tagFree, List.mem_flatMap, zero_not_mem_escapeByte]
      | minval | maxval | null => simp [Datum.isPrimaryKey] at validB
      | _ => exact keyOf_diverge_of_keyKind_ne validA validB (by simp [Datum.keyKind])
  | .bool x, validA, b, validB, differ => by
      cases b with
      | bool y => exact diverge_append_zero (by cases x <;> decide) (by cases y <;> decide) differ
      | minval | maxval | null => simp [Datum.isPrimaryKey] at validB
      | _ => exact keyOf_diverge_of_keyKind_ne validA validB (by simp [Datum.keyKind])
  | .object pairs, validA, b, validB, differ => by
      cases b with
      | object pairs' =>
          obtain ⟨-, -, epochTime, epoch, -⟩ :=
            isTime_fields (by simpa [Datum.isPrimaryKey] using validA)
          obtain ⟨-, -, epochTime', epoch', -⟩ :=
            isTime_fields (by simpa [Datum.isPrimaryKey] using validB)
          rw [keyOf_time epoch, keyOf_time epoch'] at differ ⊢
          have numbers : numberKey epochTime ≠ numberKey epochTime' :=
            fun same => differ (by rw [same])
          exact (((numberKey_diverge numbers).append_left _).append_right _ _)
      | minval | maxval | null => simp [Datum.isPrimaryKey] at validB
      | _ => exact keyOf_diverge_of_keyKind_ne validA validB (by simp [Datum.keyKind])
  | .minval, validA, _, _, _ | .maxval, validA, _, _, _ | .null, validA, _, _, _ => by
      simp [Datum.isPrimaryKey] at validA

/-- Different element lists of valid keys diverge before a final NUL byte. -/
theorem itemsKey_separated : ∀ items : List Datum, allPrimaryKeys items = true →
    ∀ items' : List Datum, allPrimaryKeys items' = true → itemsKey items ≠ itemsKey items' →
      Diverge (itemsKey items ++ [0]) (itemsKey items' ++ [0])
  | [], _, [], _, differ => absurd rfl differ
  | [], _, item' :: items', valid', _ => by
      -- The NUL byte against the tag the first element starts with.
      simp only [allPrimaryKeys, Bool.and_eq_true] at valid'
      obtain ⟨rest, key⟩ := keyOf_eq_tag_append valid'.1
      obtain ⟨⟨notPrefix, notPrefix', -⟩, -⟩ := KeyKind.tag_between item'.keyKind
      have := (diverge_of_not_isPrefix notPrefix notPrefix').append_right []
        (rest ++ [0] ++ itemsKey items' ++ [0])
      simpa [itemsKey, key] using this
  | item :: items, valid, [], _, _ => by
      simp only [allPrimaryKeys, Bool.and_eq_true] at valid
      obtain ⟨rest, key⟩ := keyOf_eq_tag_append valid.1
      obtain ⟨⟨notPrefix, notPrefix', -⟩, -⟩ := KeyKind.tag_between item.keyKind
      have := ((diverge_of_not_isPrefix notPrefix notPrefix').append_right []
        (rest ++ [0] ++ itemsKey items ++ [0])).symm
      simpa [itemsKey, key] using this
  | item :: items, valid, item' :: items', valid', differ => by
      simp only [allPrimaryKeys, Bool.and_eq_true] at valid valid'
      by_cases same : keyOf item = keyOf item'
      · -- Equal first elements: the rest diverges.
        have tails : itemsKey items ≠ itemsKey items' :=
          fun sameTail => differ (by simp [itemsKey, same, sameTail])
        have := (itemsKey_separated items valid.2 items' valid'.2 tails).append_left
          (keyOf item' ++ [0])
        simpa [itemsKey, same] using this
      · have := (keyOf_separated item valid.1 item' valid'.1 same).append_right
          (itemsKey items ++ [0]) (itemsKey items' ++ [0])
        simpa [itemsKey] using this

end

mutual

/-- **Keys are ordered like datums.**  On valid primary keys `modern_cmp` succeeds, with
the sign of the byte order of their keys. -/
theorem cmpAgrees_keyOf : ∀ a : Datum, a.isPrimaryKey = true → ∀ b : Datum,
    b.isPrimaryKey = true → CmpAgrees a b
  | .array items, validA, b, validB => by
      cases b with
      | array items' =>
          obtain ⟨c, cmpItems, sign⟩ := modernCmpArray_itemsKey items
            (by simpa [Datum.isPrimaryKey] using validA) items'
            (by simpa [Datum.isPrimaryKey] using validB)
          exact ⟨c, by rw [modernCmp_array_array, cmpItems], by
            rw [sign, keyOf, keyOf, lexSign_append_left]⟩
      | minval | maxval | null => simp [Datum.isPrimaryKey] at validB
      | _ => exact cmpAgrees_of_keyKind_ne validA validB (by simp [Datum.keyKind])
  | .num x, validA, b, validB => by
      cases b with
      | num y => exact cmpAgrees_num x y
      | minval | maxval | null => simp [Datum.isPrimaryKey] at validB
      | _ => exact cmpAgrees_of_keyKind_ne validA validB (by simp [Datum.keyKind])
  | .str s, validA, b, validB => by
      cases b with
      | str s' => exact cmpAgrees_str s s'
      | minval | maxval | null => simp [Datum.isPrimaryKey] at validB
      | _ => exact cmpAgrees_of_keyKind_ne validA validB (by simp [Datum.keyKind])
  | .binary data, validA, b, validB => by
      cases b with
      | binary data' => exact cmpAgrees_binary data data'
      | minval | maxval | null => simp [Datum.isPrimaryKey] at validB
      | _ => exact cmpAgrees_of_keyKind_ne validA validB (by simp [Datum.keyKind])
  | .bool x, validA, b, validB => by
      cases b with
      | bool y => exact cmpAgrees_bool x y
      | minval | maxval | null => simp [Datum.isPrimaryKey] at validB
      | _ => exact cmpAgrees_of_keyKind_ne validA validB (by simp [Datum.keyKind])
  | .object pairs, validA, b, validB => by
      cases b with
      | object pairs' =>
          exact cmpAgrees_time (by simpa [Datum.isPrimaryKey] using validA)
            (by simpa [Datum.isPrimaryKey] using validB)
      | minval | maxval | null => simp [Datum.isPrimaryKey] at validB
      | _ => exact cmpAgrees_of_keyKind_ne validA validB (by simp [Datum.keyKind])
  | .minval, validA, _, _ | .maxval, validA, _, _ | .null, validA, _, _ => by
      simp [Datum.isPrimaryKey] at validA

/-- The array loop of `modern_cmp` on valid elements agrees with the element keys: the
first element that differs decides, else the shorter list comes first. -/
theorem modernCmpArray_itemsKey : ∀ items : List Datum, allPrimaryKeys items = true →
    ∀ items' : List Datum, allPrimaryKeys items' = true →
      ∃ c, modernCmpArray items items' = .ok c ∧ c.sign = lexSign (itemsKey items) (itemsKey items')
  | [], _, [], _ => ⟨0, by simp [modernCmpArray]; rfl, by simp [itemsKey]⟩
  | [], _, item' :: items', _ =>
      ⟨-1, by simp [modernCmpArray]; rfl, by
        rw [itemsKey, itemsKey, lexSign_nil_of_ne_nil (by simp)]
        rfl⟩
  | item :: items, _, [], _ =>
      ⟨1, by simp [modernCmpArray]; rfl, by
        rw [itemsKey, itemsKey, lexSign_of_ne_nil_nil (by simp)]
        rfl⟩
  | item :: items, valid, item' :: items', valid' => by
      simp only [allPrimaryKeys, Bool.and_eq_true] at valid valid'
      obtain ⟨c, cmpHead, signHead⟩ := cmpAgrees_keyOf item valid.1 item' valid'.1
      by_cases zero : c = 0
      · -- Equal first elements have equal keys, and the rest decides.
        have same : keyOf item = keyOf item' := by
          rw [← lexSign_eq_zero_iff, ← signHead, zero]
          rfl
        obtain ⟨c', cmpTail, signTail⟩ := modernCmpArray_itemsKey items valid.2 items' valid'.2
        refine ⟨c', ?_, ?_⟩
        · simp [modernCmpArray, cmpHead, zero, cmpTail, bind, Except.bind]
        · rw [signTail, itemsKey, itemsKey, same, List.append_assoc, List.append_assoc,
            lexSign_append_left, lexSign_append_left]
      · -- Different first elements: their keys diverge before the NUL byte after them.
        have differ : keyOf item ≠ keyOf item' := by
          intro same
          rw [same, lexSign_eq_zero_iff.mpr rfl, Int.sign_eq_zero_iff_zero] at signHead
          exact zero signHead
        refine ⟨c, ?_, ?_⟩
        · simp [modernCmpArray, cmpHead, zero, bind, Except.bind]
          rfl
        · rw [itemsKey, itemsKey, (keyOf_separated item valid.1 item' valid'.1 differ).lexSign_append,
            lexSign_append_zero, signHead]

end

/-! ## Ranges of primary keys

`to_primary_keyrange` turns the bounds into keys with `print_primary_internal`, cut to
`MAX_KEY_SIZE`.  A row key has at most `MAX_PRIMARY_KEY_SIZE` bytes, so the cut never
changes how a bound compares with it.  The extrema are bounds only at the top level,
where the key of `r.minval` is below every tag and that of `r.maxval` above. -/

namespace KeyKind

/-- `r.minval` and `r.maxval` sort below and above every kind, by type name and by type. -/
theorem extrema_cmp (k : KeyKind) :
    (TypeT.minval ≠ k.type ∧ derivedCmp (rawTypeName .minval .yes) k.typeName = -1 ∧
      derivedCmp TypeT.minval.toNat k.type.toNat = -1) ∧
    (TypeT.maxval ≠ k.type ∧ derivedCmp (rawTypeName .maxval .yes) k.typeName = 1 ∧
      derivedCmp TypeT.maxval.toNat k.type.toNat = 1) := by
  cases k <;> decide

end KeyKind

theorem maxvalKey_eq : maxvalKey = [0x7F] ++ List.replicate 249 255 := by
  have first : StoreKey.max.contents = 255 :: List.replicate 249 255 := rfl
  have masked : (255 : UInt8) &&& 0x7F = 0x7F := by decide
  simp only [maxvalKey, first, masked, List.singleton_append]

theorem maxvalKey_length : maxvalKey.length = maxKeySize := by
  rw [maxvalKey_eq, List.length_append, List.length_replicate]
  rfl

section Extrema

variable {x : Datum} (valid : x.isPrimaryKey = true)
include valid

theorem modernCmp_minval : modernCmp .minval x = .ok (-1) := by
  have lhsTest : Datum.minval.comparesAsPtype = .ok false := rfl
  have rhsTest := comparesAsPtype_of_isPrimaryKey valid
  obtain ⟨⟨typeNe, byName, byType⟩, -⟩ := KeyKind.extrema_cmp x.keyKind
  cases ptype : x.keyKind.comparesAsPtype <;> rw [ptype] at rhsTest
  · rw [modernCmp_of_getType_ne lhsTest rhsTest (by rw [getType_of_isPrimaryKey valid]; exact typeNe),
      getType_of_isPrimaryKey valid, ← byType]
    rfl
  · rw [modernCmp_of_one_ptype lhsTest rhsTest (by decide), getTypeName_of_isPrimaryKey valid,
      ← byName]
    rfl

theorem modernCmp_maxval : modernCmp .maxval x = .ok 1 := by
  have lhsTest : Datum.maxval.comparesAsPtype = .ok false := rfl
  have rhsTest := comparesAsPtype_of_isPrimaryKey valid
  obtain ⟨-, ⟨typeNe, byName, byType⟩⟩ := KeyKind.extrema_cmp x.keyKind
  cases ptype : x.keyKind.comparesAsPtype <;> rw [ptype] at rhsTest
  · rw [modernCmp_of_getType_ne lhsTest rhsTest (by rw [getType_of_isPrimaryKey valid]; exact typeNe),
      getType_of_isPrimaryKey valid, ← byType]
    rfl
  · rw [modernCmp_of_one_ptype lhsTest rhsTest (by decide), getTypeName_of_isPrimaryKey valid,
      ← byName]
    rfl

theorem lexSign_minval_keyOf : lexSign [0] (keyOf x) = -1 := by
  obtain ⟨rest, key⟩ := keyOf_eq_tag_append valid
  obtain ⟨⟨notPrefix, notPrefix', below⟩, -⟩ := KeyKind.tag_between x.keyKind
  have := (diverge_of_not_isPrefix notPrefix notPrefix').lexSign_append [] rest
  rw [key, ← below, ← this, List.append_nil]

theorem lexSign_maxvalKey_keyOf : lexSign maxvalKey (keyOf x) = 1 := by
  obtain ⟨rest, key⟩ := keyOf_eq_tag_append valid
  obtain ⟨-, ⟨notPrefix, notPrefix', above⟩⟩ := KeyKind.tag_between x.keyKind
  have := (diverge_of_not_isPrefix notPrefix' notPrefix).lexSign_append rest (List.replicate 249 255)
  rw [lexSign_swap, key, maxvalKey_eq, this, above]
  rfl

end Extrema

/-- A bound of a primary-key range whose key orders rows as `cmp` does: a valid primary
key, or `r.minval` or `r.maxval` itself. -/
def Datum.isPrimaryBound : Datum → Bool
  | .minval | .maxval => true
  | d => d.isPrimaryKey

theorem truncatedKey_contents (s : List UInt8) : (truncatedKey s).contents = s.take maxKeySize :=
  rfl

theorem truncatedKey_contents_of_le {s : List UInt8} (short : s.length ≤ maxKeySize) :
    (truncatedKey s).contents = s :=
  List.take_of_length_le short

/-- The key a bound stands for: that of a valid primary key, or that of an extremum. -/
def boundKeyOf : Datum → List UInt8
  | .minval => [0]
  | .maxval => maxvalKey
  | d => keyOf d

theorem boundKeyOf_of_isPrimaryKey {d : Datum} (valid : d.isPrimaryKey = true) :
    boundKeyOf d = keyOf d := by
  cases d <;> simp_all [boundKeyOf, Datum.isPrimaryKey]

theorem isPrimaryBound_of_isPrimaryKey {d : Datum} (valid : d.isPrimaryKey = true) :
    d.isPrimaryBound = true := by
  cases d <;> simp_all [Datum.isPrimaryBound, Datum.isPrimaryKey]

theorem isPrimaryKey_of_isPrimaryBound {d : Datum} (isBound : d.isPrimaryBound = true)
    (notExtremum : ¬(d = .minval ∨ d = .maxval)) : d.isPrimaryKey = true := by
  cases d <;> simp_all [Datum.isPrimaryBound]

/-- `print_primary_internal` of a bound agrees with its key on `MAX_KEY_SIZE` bytes. -/
theorem printPrimaryInternal_boundKeyOf {bound : Datum} (isBound : bound.isPrimaryBound = true) :
    ∃ out, printPrimaryInternal bound = .ok out ∧
      out.take maxKeySize = (boundKeyOf bound).take maxKeySize := by
  by_cases extremum : bound = .minval ∨ bound = .maxval
  · rcases extremum with rfl | rfl <;> exact ⟨_, rfl, rfl⟩
  · have validBound := isPrimaryKey_of_isPrimaryBound isBound extremum
    obtain ⟨out, written, -, cut, -⟩ := itemToStrKey_appends [] bound validBound
    refine ⟨out, by rw [printPrimaryInternal_eq_itemToStrKey validBound, written], ?_⟩
    rw [boundKeyOf_of_isPrimaryKey validBound, cut, List.nil_append]

/-- `modern_cmp` orders a bound and a valid key as their keys. -/
theorem modernCmp_boundKeyOf {bound x : Datum} (isBound : bound.isPrimaryBound = true)
    (valid : x.isPrimaryKey = true) :
    ∃ c, modernCmp bound x = .ok c ∧ c.sign = lexSign (boundKeyOf bound) (keyOf x) := by
  by_cases extremum : bound = .minval ∨ bound = .maxval
  · rcases extremum with rfl | rfl
    · exact ⟨-1, modernCmp_minval valid, by rw [boundKeyOf, lexSign_minval_keyOf valid]; rfl⟩
    · exact ⟨1, modernCmp_maxval valid, by rw [boundKeyOf, lexSign_maxvalKey_keyOf valid]; rfl⟩
  · have validBound := isPrimaryKey_of_isPrimaryBound isBound extremum
    rw [boundKeyOf_of_isPrimaryKey validBound]
    exact cmpAgrees_keyOf bound validBound x valid

/-- The cut key of a bound compares with the key of a row as `modern_cmp` compares the
bound with the row. -/
theorem boundKey_agrees {bound x : Datum} (isBound : bound.isPrimaryBound = true)
    (valid : x.isPrimaryKey = true) (short : (keyOf x).length < maxKeySize) :
    ∃ out c, printPrimaryInternal bound = .ok out ∧ modernCmp bound x = .ok c ∧
      lexSign (truncatedKey out).contents (keyOf x) = c.sign := by
  obtain ⟨out, printed, cut⟩ := printPrimaryInternal_boundKeyOf isBound
  obtain ⟨c, compared, sign⟩ := modernCmp_boundKeyOf isBound valid
  refine ⟨out, c, printed, compared, ?_⟩
  -- The cut agrees with the whole key on more bytes than the row key has.
  rw [truncatedKey_contents, cut, lexSign_take_of_length_lt short, sign]

theorem admitsLeft_of_sign {boundType : BoundT} {bound key : List UInt8} {c : Int}
    (sign : lexSign bound key = c.sign)
    (admitted : (decide (c < 0) || (c == 0 && boundType == .closed)) = true) :
    boundType.admitsLeft bound key := by
  cases boundType with
  | closed =>
      rw [BoundT.admitsLeft, ← lexSign_eq_one_iff, sign]
      simp only [Bool.or_eq_true, decide_eq_true_eq, Bool.and_eq_true, beq_iff_eq] at admitted
      rcases admitted with negative | ⟨zero, -⟩
      · rw [Int.sign_eq_neg_one_of_neg negative]
        decide
      · rw [zero]
        decide
  | «open» =>
      rw [BoundT.admitsLeft, ← lexSign_eq_neg_one_iff, sign]
      simp only [Bool.or_eq_true, decide_eq_true_eq, Bool.and_eq_true, beq_iff_eq,
        reduceCtorEq, and_false, or_false] at admitted
      exact Int.sign_eq_neg_one_of_neg admitted
  | none => trivial

theorem admitsRight_of_sign {boundType : BoundT} {bound key : List UInt8} {c : Int}
    (sign : lexSign bound key = c.sign)
    (admitted : (decide (c > 0) || (c == 0 && boundType == .closed)) = true) :
    boundType.admitsRight bound key := by
  cases boundType with
  | closed =>
      rw [BoundT.admitsRight, ← lexSign_eq_neg_one_iff, sign]
      simp only [Bool.or_eq_true, decide_eq_true_eq, Bool.and_eq_true, beq_iff_eq] at admitted
      rcases admitted with positive | ⟨zero, -⟩
      · rw [Int.sign_eq_one_of_pos positive]
        decide
      · rw [zero]
        decide
  | «open» =>
      rw [BoundT.admitsRight, ← lexSign_eq_one_iff, sign]
      simp only [Bool.or_eq_true, decide_eq_true_eq, Bool.and_eq_true, beq_iff_eq,
        reduceCtorEq, and_false, or_false] at admitted
      exact Int.sign_eq_one_of_pos admitted
  | none => trivial

/-- Whatever its bound type, a left bound that admits a key is not above it. -/
theorem not_lt_of_admitted_left {boundType : BoundT} {bound key : List UInt8} {c : Int}
    (sign : lexSign bound key = c.sign)
    (admitted : (decide (c < 0) || (c == 0 && boundType == .closed)) = true) : ¬key < bound := by
  intro below
  rw [← lexSign_eq_one_iff, sign, Int.sign_eq_one_iff_pos] at below
  simp only [Bool.or_eq_true, decide_eq_true_eq, Bool.and_eq_true, beq_iff_eq] at admitted
  rcases admitted with negative | ⟨zero, -⟩ <;> omega

/-- Whatever its bound type, a right bound that admits a key is not below it. -/
theorem not_lt_of_admitted_right {boundType : BoundT} {bound key : List UInt8} {c : Int}
    (sign : lexSign bound key = c.sign)
    (admitted : (decide (c > 0) || (c == 0 && boundType == .closed)) = true) : ¬bound < key := by
  intro above
  rw [← lexSign_eq_neg_one_iff, sign, Int.sign_eq_neg_one_iff_neg] at above
  simp only [Bool.or_eq_true, decide_eq_true_eq, Bool.and_eq_true, beq_iff_eq] at admitted
  rcases admitted with positive | ⟨zero, -⟩ <;> omega

/-- Every row that a range of valid bounds contains has its key in the key range. -/
theorem toPrimaryKeyrange_containsKey {range : DatumRange} {version : ReqlVersion}
    (modern : version ≠ .v1_13) (leftBound : range.leftBound.isPrimaryBound = true)
    (rightBound : range.rightBound.isPrimaryBound = true) {x : Datum}
    (valid : x.isPrimaryKey = true) {key : List UInt8} (printed : printPrimary x = .ok key)
    (contains : range.contains version x = .ok true) :
    ∃ keys, range.toPrimaryKeyrange = .ok keys ∧ keys.containsKey (truncatedKey key) = true := by
  have rowKey : key = keyOf x := printPrimary_eq_keyOf valid printed
  have rowShort : key.length < maxKeySize := by
    have := printPrimary_length_le printed
    unfold maxPrimaryKeySize at this
    unfold maxKeySize
    omega
  have short : (keyOf x).length < maxKeySize := rowKey ▸ rowShort
  have rowContents : (truncatedKey key).contents = keyOf x := by
    rw [truncatedKey_contents_of_le rowShort.le, rowKey]
  obtain ⟨leftKey, leftCmp, leftPrinted, leftCompared, leftSign⟩ :=
    boundKey_agrees leftBound valid short
  obtain ⟨rightKey, rightCmp, rightPrinted, rightCompared, rightSign⟩ :=
    boundKey_agrees rightBound valid short
  rw [DatumRange.contains, cmp_of_ne_v113 modern, cmp_of_ne_v113 modern, leftCompared,
    rightCompared] at contains
  simp only [bind, Except.bind, pure, Except.pure, Except.ok.injEq, Bool.and_eq_true] at contains
  refine ⟨_, by simp [DatumRange.toPrimaryKeyrange, leftPrinted, rightPrinted, bind,
    Except.bind]; rfl, ?_⟩
  rw [KeyRange.containsKey_make, rowContents]
  exact ⟨admitsLeft_of_sign leftSign contains.1, admitsRight_of_sign rightSign contains.2⟩

/-- The row `[[true], true]` lies in the range from `r.minval` to `[[true, r.minval]]`, both
open: its first element `[true]` is a proper prefix of the bound's.  Its key does not:
inside the bound the key `\x00` of `r.minval` and the NUL after it sort below the `B`
that follows the row's first element. -/
theorem nested_minval_bound_misses_row :
    (Datum.array [.array [.bool true], .bool true]).isPrimaryKey = true ∧
    printPrimary (.array [.array [.bool true], .bool true]) =
      .ok (ascii "AABt" ++ [0, 0] ++ ascii "Bt" ++ [0]) ∧
    DatumRange.contains ⟨.minval, .«open», .array [.array [.bool true, .minval]], .«open»⟩ .v2_1
      (.array [.array [.bool true], .bool true]) = .ok true ∧
    (DatumRange.toPrimaryKeyrange
        ⟨.minval, .«open», .array [.array [.bool true, .minval]], .«open»⟩).map
      (fun keys => keys.containsKey (truncatedKey (ascii "AABt" ++ [0, 0] ++ ascii "Bt" ++ [0]))) =
      .ok false := by
  decide +kernel

/-- **Primary keys preserve the order.**  From `v1_14` on, for valid primary keys short
enough for `print_primary`, `cmp` has the sign of `sized_strcmp` of the keys, so equal keys
are equal datums for `cmp`; and a range whose bounds are valid keys or the extrema holds
the key of every row it contains. -/
theorem print_primary_order_preserving (version : ReqlVersion) (modern : version ≠ .v1_13) :
    (∀ a b : Datum, a.isPrimaryKey = true → b.isPrimaryKey = true →
      ∀ keyA keyB : List UInt8, printPrimary a = .ok keyA → printPrimary b = .ok keyB →
        ∃ c, cmp version a b = .ok c ∧ c.sign = (sizedStrcmp keyA keyB).sign ∧
          (keyA = keyB → c = 0)) ∧
    (∀ range : DatumRange, range.leftBound.isPrimaryBound = true →
      range.rightBound.isPrimaryBound = true →
      ∀ (x : Datum) (key : List UInt8), x.isPrimaryKey = true → printPrimary x = .ok key →
        range.contains version x = .ok true →
          ∃ keys, range.toPrimaryKeyrange = .ok keys ∧ keys.containsKey (truncatedKey key) = true) := by
  refine ⟨fun a b validA validB keyA keyB printedA printedB => ?_,
    fun range leftBound rightBound x key valid printed contains =>
      toPrimaryKeyrange_containsKey modern leftBound rightBound valid printed contains⟩
  obtain ⟨c, compared, sign⟩ := cmpAgrees_keyOf a validA b validB
  rw [printPrimary_eq_keyOf validA printedA, printPrimary_eq_keyOf validB printedB,
    sizedStrcmp_sign]
  refine ⟨c, by rw [cmp_of_ne_v113 modern]; exact compared, sign, fun same => ?_⟩
  rw [same, lexSign_eq_zero_iff.mpr rfl, Int.sign_eq_zero_iff_zero] at sign
  exact sign

theorem print_primary_order_preserving_bools :
    (∃ c, cmp .v2_1 (.bool false) (.bool true) = .ok c ∧
      c.sign = (sizedStrcmp (ascii "Bf") (ascii "Bt")).sign ∧ (ascii "Bf" = ascii "Bt" → c = 0)) ∧
    (∃ keys, DatumRange.toPrimaryKeyrange ⟨.minval, .«open», .maxval, .«open»⟩ = .ok keys ∧
      keys.containsKey (truncatedKey (ascii "Bt")) = true) :=
  ⟨(print_primary_order_preserving .v2_1 (by decide)).1 (.bool false) (.bool true) rfl rfl _ _
      (by decide +kernel) (by decide +kernel),
    (print_primary_order_preserving .v2_1 (by decide)).2 ⟨.minval, .«open», .maxval, .«open»⟩
      rfl rfl (.bool true) _ rfl (by decide +kernel) (by decide +kernel)⟩

end Ql
end RethinkDB
