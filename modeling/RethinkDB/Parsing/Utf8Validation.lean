import Mathlib
import RethinkDB.Parsing.Utf8

/-!
# Validating and iterating over whole strings

`is_valid_internal` reads code points from the start until the end or the first failure, and
moves the failure's position from the code point's start to the string's.  `iterator_t` reads
them one at a time as it is advanced.

By the two directions of one read (`nextCodepoint_encodeValue`, `nextCodepoint_ok_inv`), a
string passes exactly when it is a concatenation of encodings of values below U+110000
(`isValid_iff_encodes`): the surrogates U+D800..U+DFFF included, which RFC 3629 excludes and
which no string of scalar values encodes to.
-/

namespace RethinkDB
namespace Utf8

/-- A read consumes at least one byte. -/
theorem length_rest_lt (codepoint : UInt32) (current : UInt8) (rest : List UInt8) :
    (nextCodepoint codepoint (current :: rest)).rest.length < rest.length + 1 := by
  obtain ⟨read, split, least, -, -⟩ := nextCodepoint_cases codepoint current rest
  have lengths := congrArg List.length split
  simp only [List.length_cons, List.length_append] at lengths
  omega

/-- A read with no explanation ended without a failure. -/
theorem reason_eq_ok_of_explanation (codepoint : UInt32) (current : UInt8) (rest : List UInt8)
    (empty : (nextCodepoint codepoint (current :: rest)).reason.explanation = "") :
    (nextCodepoint codepoint (current :: rest)).reason = Reason.ok := by
  obtain ⟨read, -, -, -, ok | ⟨named, -⟩⟩ := nextCodepoint_cases codepoint current rest
  · exact ok
  · exact absurd empty named

/-- `is_valid_internal`, `consumed` bytes after `begin`, from the reason it was given. -/
def isValidInternal (reason : Reason) (consumed : Nat) : List UInt8 → Bool × Reason
  | [] => (true, reason)
  | current :: rest =>
      -- the code point `is_valid_internal` passes is never read on a non-empty input
      let decoded := nextCodepoint 0 (current :: rest)
      if decoded.reason.explanation ≠ "" then
        (false, ⟨decoded.reason.explanation, decoded.reason.position + consumed⟩)
      else
        isValidInternal decoded.reason (consumed + (rest.length + 1 - decoded.rest.length))
          decoded.rest
termination_by bytes => bytes.length
decreasing_by exact length_rest_lt 0 current rest

/-- `is_valid`: the reason `is_valid_internal` reports is dropped. -/
def isValid (bytes : List UInt8) : Bool := (isValidInternal Reason.ok 0 bytes).1

/-- `bytes` is a concatenation of encodings of values below U+110000. -/
def Encodes (bytes : List UInt8) : Prop :=
  ∃ values : List Nat, (∀ v ∈ values, v < 0x110000) ∧ bytes = values.flatMap encodeValue

theorem encodes_nil : Encodes [] := ⟨[], by simp, rfl⟩

theorem encodeValue_ne_nil (v : Nat) : encodeValue v ≠ [] := by
  unfold encodeValue
  split_ifs <;> simp

/-- A read of a string that encodes values reads the first value and leaves the others. -/
theorem encodes_cons_inv {current : UInt8} {rest : List UInt8} (codepoint : UInt32)
    (encodes : Encodes (current :: rest)) :
    (nextCodepoint codepoint (current :: rest)).reason = Reason.ok ∧
      Encodes (nextCodepoint codepoint (current :: rest)).rest := by
  obtain ⟨values, valid, split⟩ := encodes
  cases values with
  | nil => simp at split
  | cons v values =>
      rw [split, List.flatMap_cons, nextCodepoint_encodeValue codepoint _ (valid v (by simp))]
      exact ⟨rfl, values, fun w mem => valid w (List.mem_cons_of_mem v mem), rfl⟩

/-- A read without a failure, in front of a string that encodes values. -/
theorem encodes_cons_of_read {current : UInt8} {rest : List UInt8} (codepoint : UInt32)
    (ok : (nextCodepoint codepoint (current :: rest)).reason = Reason.ok)
    (encodes : Encodes (nextCodepoint codepoint (current :: rest)).rest) :
    Encodes (current :: rest) := by
  obtain ⟨v, below, split, -⟩ := nextCodepoint_ok_inv codepoint current rest ok
  obtain ⟨values, valid, rest_split⟩ := encodes
  refine ⟨v :: values, ?_, ?_⟩
  · intro w mem
    rcases List.mem_cons.mp mem with rfl | mem
    · exact below
    · exact valid w mem
  · rw [List.flatMap_cons, ← rest_split]
    exact split

/-- **What `is_valid_internal` accepts**: exactly the concatenations of encodings of values
below U+110000. -/
theorem isValidInternal_iff (reason : Reason) (consumed : Nat) (bytes : List UInt8) :
    (isValidInternal reason consumed bytes).1 = true ↔ Encodes bytes := by
  fun_induction isValidInternal reason consumed bytes with
  | case1 reason consumed => simp [encodes_nil]
  | case2 reason consumed current rest decoded failed =>
      -- a string that encodes values reads without a failure
      refine ⟨fun passes => absurd passes Bool.false_ne_true, fun encodes => absurd ?_ failed⟩
      rw [(encodes_cons_inv 0 encodes).1]
      rfl
  | case3 reason consumed current rest decoded passed ih =>
      have ok := reason_eq_ok_of_explanation 0 current rest (not_not.mp passed)
      rw [ih]
      exact ⟨encodes_cons_of_read 0 ok, fun encodes => (encodes_cons_inv 0 encodes).2⟩

theorem encodes_append {front back : List UInt8} (encodesFront : Encodes front)
    (encodesBack : Encodes back) : Encodes (front ++ back) := by
  obtain ⟨values, valid, rfl⟩ := encodesFront
  obtain ⟨values', valid', rfl⟩ := encodesBack
  refine ⟨values ++ values', fun v mem => ?_, List.flatMap_append.symm⟩
  rcases List.mem_append.mp mem with mem | mem
  · exact valid v mem
  · exact valid' v mem

/-- **Where `is_valid_internal` fails**: after a prefix that encodes values, at the last byte
of the one to four bytes the failing read took. -/
theorem isValidInternal_failure (reason : Reason) (consumed : Nat) (bytes : List UInt8)
    (fails : (isValidInternal reason consumed bytes).1 = false) :
    (isValidInternal reason consumed bytes).2.explanation ≠ "" ∧
      ∃ front read back, bytes = front ++ read ++ back ∧ Encodes front ∧
        1 ≤ read.length ∧ read.length ≤ 4 ∧
        (isValidInternal reason consumed bytes).2.position =
          consumed + front.length + read.length - 1 := by
  fun_induction isValidInternal reason consumed bytes with
  | case1 reason consumed => exact absurd fails (by simp)
  | case2 reason consumed current rest decoded failed =>
      obtain ⟨read, split, least, most, ok | ⟨-, position⟩⟩ : ReadsWithin (current :: rest) decoded :=
        nextCodepoint_cases 0 current rest
      · exact absurd (congrArg Reason.explanation ok) failed
      · refine ⟨failed, [], read, decoded.rest, by simpa using split, encodes_nil, least, most, ?_⟩
        simp only [List.length_nil]
        omega
  | case3 reason consumed current rest decoded passed ih =>
      have ok := reason_eq_ok_of_explanation 0 current rest (not_not.mp passed)
      obtain ⟨v, below, split, -⟩ : ReadsEncoding (current :: rest) decoded :=
        nextCodepoint_ok_inv 0 current rest ok
      obtain ⟨named, front, read, back, rfl', encodes, least, most, position⟩ := ih fails
      have lengths := congrArg List.length split
      simp only [List.length_cons, List.length_append] at lengths
      refine ⟨named, encodeValue v ++ front, read, back, ?_, ?_, least, most, ?_⟩
      · rw [split, rfl', List.append_assoc, List.append_assoc, List.append_assoc]
      · exact encodes_append ⟨[v], by simpa using below, by simp⟩ encodes
      · rw [position, List.length_append]
        omega

theorem isValid_iff_encodes (bytes : List UInt8) : isValid bytes = true ↔ Encodes bytes :=
  isValidInternal_iff Reason.ok 0 bytes

/-- Encodings are read back one at a time: the first value and what follows it are fixed by the
bytes. -/
theorem encodeValue_append_inj {v w : Nat} {rest rest' : List UInt8} (below : v < 0x110000)
    (below' : w < 0x110000) (same : encodeValue v ++ rest = encodeValue w ++ rest') :
    v = w ∧ rest = rest' := by
  have reads := congrArg (nextCodepoint 0) same
  rw [nextCodepoint_encodeValue 0 rest below, nextCodepoint_encodeValue 0 rest' below',
    Decoded.mk.injEq] at reads
  obtain ⟨rfl, values, -⟩ := reads
  have toNats := congrArg UInt32.toNat values
  rw [UInt32.toNat_ofNat', UInt32.toNat_ofNat'] at toNats
  exact ⟨by omega, rfl⟩

/-! ## `iterator_t` -/

/-- `iterator_t` over a byte string: `consumed` is `position - start`, and `remaining` the bytes
from `position` to `end`. -/
structure Iterator where
  consumed : Nat
  remaining : List UInt8
  lastSeen : UInt32
  reason : Reason
  seenEnd : Bool
  deriving DecidableEq, Repr

namespace Iterator

/-- `iterator_t::advance`: a failure does not stop it, it only records the reason. -/
def advance (it : Iterator) : Iterator :=
  if it.seenEnd then it
  else
    match it.remaining with
    | [] => { it with lastSeen := 0, reason := Reason.ok, seenEnd := true }
    | current :: rest =>
        let decoded := nextCodepoint it.lastSeen (current :: rest)
        { it with
          consumed := it.consumed + (rest.length + 1 - decoded.rest.length)
          remaining := decoded.rest
          lastSeen := decoded.codepoint
          reason :=
            if decoded.reason.explanation ≠ "" then
              ⟨decoded.reason.explanation, decoded.reason.position + it.consumed⟩
            else decoded.reason }

/-- The constructor from `begin` and `end`: `seen_end` is `begin == end`, then one `advance`.
The code point and reason it starts from are never read. -/
def make (bytes : List UInt8) : Iterator :=
  advance ⟨0, bytes, 0, Reason.ok, bytes.isEmpty⟩

/-- The code points a loop `for (; it; ++it)` reads through `*it`, up to `fuel` of them. -/
def collect : Nat → Iterator → List UInt32
  | 0, _ => []
  | fuel + 1, it => if it.seenEnd then [] else it.lastSeen :: collect fuel it.advance

theorem advance_of_seenEnd {it : Iterator} (ended : it.seenEnd = true) : it.advance = it := by
  simp [advance, ended]

theorem advance_nil {it : Iterator} (reading : it.seenEnd = false) (done : it.remaining = []) :
    it.advance = { it with lastSeen := 0, reason := Reason.ok, seenEnd := true } := by
  simp [advance, reading, done]

/-- Advancing over an encoding reads its value without a failure. -/
theorem advance_encodeValue {it : Iterator} (reading : it.seenEnd = false) {v : Nat}
    (below : v < 0x110000) {rest : List UInt8} (remaining : it.remaining = encodeValue v ++ rest) :
    it.advance = { it with
      consumed := it.consumed + (encodeValue v).length
      remaining := rest
      lastSeen := UInt32.ofNat v
      reason := Reason.ok } := by
  obtain ⟨current, bytes, front⟩ : ∃ current bytes, encodeValue v ++ rest = current :: bytes := by
    unfold encodeValue
    split_ifs <;> exact ⟨_, _, rfl⟩
  have lengths := congrArg List.length front
  simp only [List.length_append, List.length_cons] at lengths
  simp only [advance, reading, Bool.false_eq_true, if_false, remaining, front]
  rw [← front, nextCodepoint_encodeValue it.lastSeen rest below]
  simp only [Reason.ok, ne_eq, not_true_eq_false, if_false]
  congr 1
  omega

theorem collect_of_seenEnd (fuel : Nat) {it : Iterator} (ended : it.seenEnd = true) :
    collect fuel it = [] := by
  cases fuel <;> simp [collect, ended]

/-- From a code point read, the loop yields it and then the values encoded after it. -/
theorem collect_encodes (values : List Nat) (valid : ∀ v ∈ values, v < 0x110000) (extra : Nat) :
    ∀ it : Iterator, it.seenEnd = false → it.remaining = values.flatMap encodeValue →
      collect (values.length + 1 + extra) it = it.lastSeen :: values.map UInt32.ofNat := by
  induction values with
  | nil =>
      intro it reading done
      rw [List.length_nil, Nat.zero_add, Nat.add_comm, collect, if_neg (by simp [reading]),
        advance_nil reading done, collect_of_seenEnd extra rfl]
      rfl
  | cons v values ih =>
      intro it reading remaining
      have advanced := advance_encodeValue reading (valid v (by simp))
        (remaining.trans List.flatMap_cons)
      have further := ih (fun w mem => valid w (List.mem_cons_of_mem v mem)) it.advance
        (by rw [advanced]; exact reading) (by rw [advanced])
      rw [List.length_cons, show values.length + 1 + 1 + extra = values.length + 1 + extra + 1 by
        omega, collect, if_neg (by simp [reading]), further, advanced]
      rfl

/-- **Iterating over encodings yields their values**, however much fuel beyond their number. -/
theorem collect_make (values : List Nat) (valid : ∀ v ∈ values, v < 0x110000) (extra : Nat) :
    collect (values.length + extra) (make (values.flatMap encodeValue)) =
      values.map UInt32.ofNat := by
  cases values with
  | nil => exact collect_of_seenEnd _ (by simp [make, advance])
  | cons v values =>
      let start : Iterator :=
        ⟨0, (v :: values).flatMap encodeValue, 0, Reason.ok, ((v :: values).flatMap encodeValue).isEmpty⟩
      have reading : start.seenEnd = false := by
        simp [start, List.flatMap_cons, encodeValue_ne_nil]
      have advanced := advance_encodeValue reading (valid v (by simp)) List.flatMap_cons
      have further := collect_encodes values (fun w mem => valid w (List.mem_cons_of_mem v mem))
        extra start.advance (by rw [advanced]; exact reading) (by rw [advanced])
      rw [make, List.length_cons]
      change collect (values.length + 1 + extra) start.advance = _
      rw [further, advanced]
      rfl

/-- From a code point read, one advance per value encoded after it, and one more, reach the
end of the string. -/
theorem iterate_encodes (values : List Nat) (valid : ∀ v ∈ values, v < 0x110000) :
    ∀ it : Iterator, it.seenEnd = false → it.remaining = values.flatMap encodeValue →
      (advance^[values.length + 1] it).seenEnd = true ∧
        (advance^[values.length + 1] it).remaining = [] ∧
        (advance^[values.length + 1] it).consumed =
          it.consumed + (values.flatMap encodeValue).length := by
  induction values with
  | nil =>
      intro it reading done
      rw [List.length_nil, Nat.zero_add, Function.iterate_one, advance_nil reading done]
      exact ⟨rfl, done, by simp⟩
  | cons v values ih =>
      intro it reading remaining
      have advanced := advance_encodeValue reading (valid v (by simp))
        (remaining.trans List.flatMap_cons)
      obtain ⟨ended, done, consumed⟩ := ih (fun w mem => valid w (List.mem_cons_of_mem v mem))
        it.advance (by rw [advanced]; exact reading) (by rw [advanced])
      rw [List.length_cons, Function.iterate_succ_apply]
      refine ⟨ended, done, ?_⟩
      rw [consumed, advanced, List.flatMap_cons, List.length_append, Nat.add_assoc]

/-- **The iterator ends at the end of the buffer** after one advance per value. -/
theorem iterate_make (values : List Nat) (valid : ∀ v ∈ values, v < 0x110000) :
    (advance^[values.length] (make (values.flatMap encodeValue))).seenEnd = true ∧
      (advance^[values.length] (make (values.flatMap encodeValue))).remaining = [] ∧
      (advance^[values.length] (make (values.flatMap encodeValue))).consumed =
        (values.flatMap encodeValue).length := by
  cases values with
  | nil =>
      simp only [List.length_nil, Function.iterate_zero, id, List.flatMap_nil]
      exact ⟨by simp [make, advance], by simp [make, advance], by simp [make, advance]⟩
  | cons v values =>
      have reading : (⟨0, (v :: values).flatMap encodeValue, 0, Reason.ok,
          ((v :: values).flatMap encodeValue).isEmpty⟩ : Iterator).seenEnd = false := by
        simp [List.flatMap_cons, encodeValue_ne_nil]
      rw [make, ← Function.iterate_succ_apply]
      obtain ⟨ended, done, consumed⟩ := iterate_encodes (v :: values) valid _ reading rfl
      exact ⟨ended, done, consumed.trans (Nat.zero_add _)⟩

/-- The iterator over the encoding of a string of characters yields its characters. -/
theorem collect_make_utf8Encode (chars : List Char) (extra : Nat) :
    collect (chars.length + extra) (make (chars.flatMap String.utf8EncodeChar)) =
      chars.map Char.val := by
  have valid : ∀ v ∈ chars.map (fun c => c.val.toNat), v < 0x110000 := by
    intro v mem
    obtain ⟨c, -, rfl⟩ := List.mem_map.mp mem
    rcases c.valid with low | ⟨-, high⟩ <;> omega
  have encoded : chars.flatMap String.utf8EncodeChar =
      (chars.map fun c => c.val.toNat).flatMap encodeValue := by
    rw [List.flatMap_map]
    rfl
  rw [encoded, ← List.length_map (fun c : Char => c.val.toNat), collect_make _ valid extra,
    List.map_map]
  exact List.map_congr_left fun c _ => UInt32.ofNat_toNat

end Iterator

/-! ## RFC 3629

Core's `ByteArray.IsValidUTF8` says that bytes are the encoding of a string of characters, that
is of scalar values: below U+110000 and outside U+D800..U+DFFF. -/

theorem utf8EncodeChar_ofNat {v : Nat} (scalar : v.isValidChar) :
    String.utf8EncodeChar (Char.ofNat v) = encodeValue v := by
  rw [utf8EncodeChar_eq_encodeValue, Char.val_ofNat scalar, UInt32.toNat_ofNat']
  have below : v < 2 ^ 32 := by
    rcases scalar with low | ⟨-, high⟩ <;> omega
  rw [Nat.mod_eq_of_lt below]

/-- **Well-formed UTF-8 is the concatenations of encodings of scalar values.** -/
theorem isValidUTF8_iff (bytes : List UInt8) :
    bytes.toByteArray.IsValidUTF8 ↔
      ∃ values : List Nat, (∀ v ∈ values, v.isValidChar) ∧ bytes = values.flatMap encodeValue := by
  constructor
  · rintro ⟨chars, encoded⟩
    refine ⟨chars.map fun c => c.val.toNat, fun v mem => ?_, ?_⟩
    · obtain ⟨c, -, rfl⟩ := List.mem_map.mp mem
      exact c.valid
    · rw [List.flatMap_map]
      exact List.toByteArray_inj.mp encoded
  · rintro ⟨values, scalar, rfl⟩
    refine ⟨values.map Char.ofNat, ?_⟩
    show _ = ((values.map Char.ofNat).flatMap String.utf8EncodeChar).toByteArray
    rw [List.flatMap_map, List.flatMap_congr fun v mem => utf8EncodeChar_ofNat (scalar v mem)]

/-- Every string of characters passes `is_valid`. -/
theorem isValid_utf8Encode (chars : List Char) :
    isValid (chars.flatMap String.utf8EncodeChar) = true := by
  rw [isValid_iff_encodes]
  refine ⟨chars.map fun c => c.val.toNat, fun v mem => ?_, ?_⟩
  · obtain ⟨c, -, rfl⟩ := List.mem_map.mp mem
    rcases c.valid with low | ⟨-, high⟩ <;> omega
  · rw [List.flatMap_map]
    rfl

/-- **The encodings of the surrogates pass `is_valid`**, though they are not well-formed: the
three-byte branch tests only for an overlong value. -/
theorem surrogate_encodings_pass_validation (n : Nat) (low : 0xD800 ≤ n) (high : n ≤ 0xDFFF) :
    isValid (encodeValue n) = true ∧ ¬ (encodeValue n).toByteArray.IsValidUTF8 := by
  constructor
  · rw [isValid_iff_encodes]
    exact ⟨[n], by simp; omega, by simp⟩
  · rw [isValidUTF8_iff]
    rintro ⟨values, scalar, encoded⟩
    cases values with
    | nil => exact absurd encoded (by unfold encodeValue; split_ifs <;> simp)
    | cons w values =>
        have scalarW := scalar w (by simp)
        rw [List.flatMap_cons, ← List.append_nil (encodeValue n)] at encoded
        have same := (encodeValue_append_inj (by omega)
          (by rcases scalarW with h | ⟨-, h⟩ <;> omega) encoded).1
        subst same
        rcases scalarW with h | ⟨h, -⟩ <;> omega

theorem surrogate_D800_passes_validation :
    0xD800 ≤ 0xD800 ∧ 0xD800 ≤ 0xDFFF ∧
      (isValid (encodeValue 0xD800) = true ∧ ¬ (encodeValue 0xD800).toByteArray.IsValidUTF8) :=
  ⟨by decide, by decide, surrogate_encodings_pass_validation 0xD800 (by decide) (by decide)⟩

example : encodeValue 0xD800 = [0xED, 0xA0, 0x80] := by decide

end Utf8
end RethinkDB
