import Mathlib

/-!
# UTF-8 validation

`parsing/utf8.cc` reads a byte string one code point at a time (`next_codepoint`): the lead
byte's high bits give the length of the sequence, each continuation byte is checked as it is
read, and the value is checked against the least value of its length and, for four bytes,
against U+10FFFF.  A failure records an explanation and the index of the last byte it read.
`is_valid` reads up to the end or the first failure, and `iterator_t` yields the code points
one by one.

Every read advances by one to four bytes, and a failure's position lies among the bytes it
read (`nextCodepoint_cases`).  The encoding of every value below U+110000 reads back as that
value (`nextCodepoint_encodeValue`), so every string of scalar values passes
(`isValid_utf8Encode`) and the iterator yields its scalar values.  The three-byte branch has
no test for the UTF-16 surrogates U+D800..U+DFFF, so their encodings pass as well, though no
string of scalar values encodes to them.

A `char` is read as its byte: the masks the code applies after the promotion to `unsigned int`
keep only the low eight bits.
-/

namespace RethinkDB
namespace Utf8

/-! ## Bytes -/

/-- `is_standalone`: `0xxxxxxx`. -/
def isStandalone (c : UInt8) : Bool := c &&& 0x80 == 0

/-- `is_twobyte_start`: `110xxxxx`. -/
def isTwobyteStart (c : UInt8) : Bool := c &&& 0xE0 == 0xC0

/-- `is_threebyte_start`: `1110xxxx`. -/
def isThreebyteStart (c : UInt8) : Bool := c &&& 0xF0 == 0xE0

/-- `is_fourbyte_start`: `11110xxx`. -/
def isFourbyteStart (c : UInt8) : Bool := c &&& 0xF8 == 0xF0

/-- `is_continuation`: `10xxxxxx`. -/
def isContinuation (c : UInt8) : Bool := c &&& 0xC0 == 0x80

/-- `extract_bits`: the bits of `c` outside `bits`. -/
def extractBits (c bits : UInt8) : UInt32 := (c &&& ~~~bits).toUInt32

/-- `continuation_data`. -/
def continuationData (c : UInt8) : UInt32 := extractBits c 0xC0

/-- `extract_and_shift`. -/
def extractAndShift (c bits : UInt8) (amount : UInt32) : UInt32 := extractBits c bits <<< amount

/-! ## Reading one code point -/

/-- `reason_t`: an explanation, empty where there was no failure, and a position. -/
structure Reason where
  explanation : String
  position : Nat
  deriving DecidableEq, Repr

/-- The reason `next_codepoint` starts from. -/
def Reason.ok : Reason := ⟨"", 0⟩

/-- What `next_codepoint` leaves: the bytes from the position it returns on, the code point it
wrote and the reason. -/
structure Decoded where
  rest : List UInt8
  codepoint : UInt32
  reason : Reason
  deriving DecidableEq, Repr

/-- `fail`, at the position `consumed` bytes after the start: the index of the last byte read,
by the `- 1` for the post-increment, and the replacement character U+FFFD. -/
def fail (explanation : String) (consumed : Nat) (rest : List UInt8) : Decoded :=
  ⟨rest, 0xFFFD, ⟨explanation, consumed - 1⟩⟩

/-- `is_valid_continuation_byte`, with the `*position++` that reads the byte once it passes. -/
def continuationByte : List UInt8 → Except String (UInt8 × List UInt8)
  | [] => .error "Expected continuation byte, saw end of string"
  | c :: rest =>
      if isContinuation c then .ok (c, rest)
      else .error "Expected continuation byte, saw something else"

/-- The step every multi-byte branch repeats: `is_valid_continuation_byte`, then `fail` with
its explanation after `consumed` bytes, or go on with the byte read. -/
def continuing (consumed : Nat) (rest : List UInt8) (next : UInt8 → List UInt8 → Decoded) :
    Decoded :=
  match continuationByte rest with
  | .error explanation => fail explanation consumed rest
  | .ok (c, rest') => next c rest'

/-- The two-byte branch of `next_codepoint`, after the lead byte `current`: `110xxxxx`. -/
def readTwo (current : UInt8) (rest : List UInt8) : Decoded :=
  continuing 1 rest fun c1 rest1 =>
    let codepoint := extractAndShift current 0xE0 6 ||| continuationData c1
    if codepoint < 0x0080 then fail "Overlong encoding seen" 2 rest1
    else ⟨rest1, codepoint, Reason.ok⟩

/-- The three-byte branch: `1110xxxx`. -/
def readThree (current : UInt8) (rest : List UInt8) : Decoded :=
  continuing 1 rest fun c1 rest1 =>
    continuing 2 rest1 fun c2 rest2 =>
      let codepoint := extractAndShift current 0xF0 12 |||
        continuationData c1 <<< 6 ||| continuationData c2
      if codepoint < 0x0800 then fail "Overlong encoding seen" 3 rest2
      else ⟨rest2, codepoint, Reason.ok⟩

/-- The four-byte branch: `11110xxx`, and at most U+10FFFF. -/
def readFour (current : UInt8) (rest : List UInt8) : Decoded :=
  continuing 1 rest fun c1 rest1 =>
    continuing 2 rest1 fun c2 rest2 =>
      continuing 3 rest2 fun c3 rest3 =>
        let codepoint := extractAndShift current 0xF8 18 |||
          continuationData c1 <<< 12 ||| continuationData c2 <<< 6 ||| continuationData c3
        if codepoint < 0x10000 then fail "Overlong encoding seen" 4 rest3
        else if codepoint > 0x10FFFF then
          fail "Non-Unicode character encoded (beyond U+10FFFF)" 4 rest3
        else ⟨rest3, codepoint, Reason.ok⟩

/-- `next_codepoint`, from the code point it was given: an empty input leaves it unwritten. -/
def nextCodepoint (codepoint : UInt32) : List UInt8 → Decoded
  | [] => ⟨[], codepoint, Reason.ok⟩
  | current :: rest =>
      if isStandalone current then ⟨rest, current.toUInt32, Reason.ok⟩
      else if isTwobyteStart current then readTwo current rest
      else if isThreebyteStart current then readThree current rest
      else if isFourbyteStart current then readFour current rest
      else fail "Invalid initial byte seen" 1 rest

/-! ## The byte classes as ranges -/

/-- A fact about every byte follows from the fact at every number below `256`, which `decide`
checks one number at a time. -/
theorem forall_byte {p : UInt8 → Prop} (everyByte : ∀ n, n < 256 → p (UInt8.ofNat n)) :
    ∀ c, p c := by
  intro c
  have := everyByte c.toNat c.toNat_lt
  rwa [UInt8.ofNat_toNat] at this

section ByteClasses

-- the checks of all numbers below `256` recurse deeper than the default allows
set_option maxRecDepth 8192

theorem isStandalone_eq : ∀ c : UInt8, isStandalone c = decide (c.toNat < 0x80) :=
  forall_byte (by decide)

theorem isTwobyteStart_eq :
    ∀ c : UInt8, isTwobyteStart c = decide (0xC0 ≤ c.toNat ∧ c.toNat < 0xE0) :=
  forall_byte (by decide)

theorem isThreebyteStart_eq :
    ∀ c : UInt8, isThreebyteStart c = decide (0xE0 ≤ c.toNat ∧ c.toNat < 0xF0) :=
  forall_byte (by decide)

theorem isFourbyteStart_eq :
    ∀ c : UInt8, isFourbyteStart c = decide (0xF0 ≤ c.toNat ∧ c.toNat < 0xF8) :=
  forall_byte (by decide)

theorem isContinuation_eq :
    ∀ c : UInt8, isContinuation c = decide (0x80 ≤ c.toNat ∧ c.toNat < 0xC0) :=
  forall_byte (by decide)

theorem toNat_extractBits_E0 : ∀ c : UInt8, (extractBits c 0xE0).toNat = c.toNat % 32 :=
  forall_byte (by decide)

theorem toNat_extractBits_F0 : ∀ c : UInt8, (extractBits c 0xF0).toNat = c.toNat % 16 :=
  forall_byte (by decide)

theorem toNat_extractBits_F8 : ∀ c : UInt8, (extractBits c 0xF8).toNat = c.toNat % 8 :=
  forall_byte (by decide)

theorem toNat_continuationData : ∀ c : UInt8, (continuationData c).toNat = c.toNat % 64 :=
  forall_byte (by decide)

end ByteClasses

theorem toNat_ofNat_byte {n : Nat} (h : n < 256) : (UInt8.ofNat n).toNat = n := by
  rw [UInt8.toNat_ofNat']; omega

theorem ofNat_eq_of_toNat {c : UInt8} {n : Nat} (h : c.toNat = n) : UInt8.ofNat n = c := by
  rw [← h, UInt8.ofNat_toNat]

theorem eq_ofNat_of_toNat {a : UInt32} {v : Nat} (h : a.toNat = v) : a = UInt32.ofNat v := by
  rw [← h, UInt32.ofNat_toNat]

/-! ## What one read does -/

/-- A continuation read fails with an explanation, or reads the byte in front. -/
theorem continuationByte_cases (bytes : List UInt8) :
    (∃ explanation, continuationByte bytes = .error explanation ∧ explanation ≠ "") ∨
      ∃ c rest, continuationByte bytes = .ok (c, rest) ∧ bytes = c :: rest ∧
        isContinuation c = true := by
  cases bytes with
  | nil => exact Or.inl ⟨_, rfl, by decide⟩
  | cons c rest =>
      by_cases continuation : isContinuation c = true
      · exact Or.inr ⟨c, rest, by simp [continuationByte, continuation], rfl, continuation⟩
      · exact Or.inl ⟨"Expected continuation byte, saw something else",
          by simp [continuationByte, continuation], by decide⟩

@[simp] theorem continuing_cons {c : UInt8} (consumed : Nat) (rest : List UInt8)
    (next : UInt8 → List UInt8 → Decoded) (continuation : isContinuation c = true) :
    continuing consumed (c :: rest) next = next c rest := by
  simp [continuing, continuationByte, continuation]

theorem fail_reason_ne_ok {explanation : String} (named : explanation ≠ "") (consumed : Nat)
    (rest : List UInt8) : (fail explanation consumed rest).reason ≠ Reason.ok := by
  intro same
  exact named (congrArg Reason.explanation same)

/-- A continuation step that ended without a failure read a continuation byte. -/
theorem continuing_ok_inv {consumed : Nat} {rest : List UInt8}
    {next : UInt8 → List UInt8 → Decoded} (ok : (continuing consumed rest next).reason = Reason.ok) :
    ∃ c rest', rest = c :: rest' ∧ isContinuation c = true ∧ (next c rest').reason = Reason.ok := by
  rcases continuationByte_cases rest with ⟨explanation, read, named⟩ | ⟨c, rest', -, rfl, continuation⟩
  · simp only [continuing, read] at ok
    exact absurd ok (fail_reason_ne_ok named consumed rest)
  · rw [continuing_cons consumed rest' next continuation] at ok
    exact ⟨c, rest', rfl, continuation, ok⟩

/-- What a read of `bytes` may leave: a prefix of one to four bytes read, and either no failure
or an explanation at the index of the last byte read. -/
def ReadsWithin (bytes : List UInt8) (decoded : Decoded) : Prop :=
  ∃ read, bytes = read ++ decoded.rest ∧ 1 ≤ read.length ∧ read.length ≤ 4 ∧
    (decoded.reason = Reason.ok ∨
      decoded.reason.explanation ≠ "" ∧ decoded.reason.position = read.length - 1)

theorem readsWithin_fail {bytes rest : List UInt8} {explanation : String} (read : List UInt8)
    (named : explanation ≠ "") (split : bytes = read ++ rest) (least : 1 ≤ read.length)
    (most : read.length ≤ 4) : ReadsWithin bytes (fail explanation read.length rest) :=
  ⟨read, split, least, most, Or.inr ⟨named, rfl⟩⟩

theorem readsWithin_ok {bytes rest : List UInt8} {codepoint : UInt32} (read : List UInt8)
    (split : bytes = read ++ rest) (least : 1 ≤ read.length) (most : read.length ≤ 4) :
    ReadsWithin bytes ⟨rest, codepoint, Reason.ok⟩ :=
  ⟨read, split, least, most, Or.inl rfl⟩

/-- A continuation step reads within bounds if what follows it does. -/
theorem readsWithin_continuing {bytes rest : List UInt8} (read : List UInt8)
    {next : UInt8 → List UInt8 → Decoded} (split : bytes = read ++ rest) (least : 1 ≤ read.length)
    (most : read.length ≤ 4) (further : ∀ c rest', rest = c :: rest' → ReadsWithin bytes (next c rest')) :
    ReadsWithin bytes (continuing read.length rest next) := by
  rcases continuationByte_cases rest with ⟨explanation, read', named⟩ | ⟨c, rest', -, rfl, continuation⟩
  · simp only [continuing, read']
    exact readsWithin_fail read named split least most
  · rw [continuing_cons read.length rest' next continuation]
    exact further c rest' rfl

theorem readsWithin_readTwo (current : UInt8) (rest : List UInt8) :
    ReadsWithin (current :: rest) (readTwo current rest) := by
  refine readsWithin_continuing [current] rfl (by simp) (by simp) ?_
  rintro c1 rest1 rfl
  dsimp only
  split_ifs
  · exact readsWithin_fail [current, c1] (by decide) rfl (by simp) (by simp)
  · exact readsWithin_ok [current, c1] rfl (by simp) (by simp)

theorem readsWithin_readThree (current : UInt8) (rest : List UInt8) :
    ReadsWithin (current :: rest) (readThree current rest) := by
  refine readsWithin_continuing [current] rfl (by simp) (by simp) ?_
  rintro c1 rest1 rfl
  refine readsWithin_continuing [current, c1] rfl (by simp) (by simp) ?_
  rintro c2 rest2 rfl
  dsimp only
  split_ifs
  · exact readsWithin_fail [current, c1, c2] (by decide) rfl (by simp) (by simp)
  · exact readsWithin_ok [current, c1, c2] rfl (by simp) (by simp)

theorem readsWithin_readFour (current : UInt8) (rest : List UInt8) :
    ReadsWithin (current :: rest) (readFour current rest) := by
  refine readsWithin_continuing [current] rfl (by simp) (by simp) ?_
  rintro c1 rest1 rfl
  refine readsWithin_continuing [current, c1] rfl (by simp) (by simp) ?_
  rintro c2 rest2 rfl
  refine readsWithin_continuing [current, c1, c2] rfl (by simp) (by simp) ?_
  rintro c3 rest3 rfl
  dsimp only
  split_ifs
  · exact readsWithin_fail [current, c1, c2, c3] (by decide) rfl (by simp) (by simp)
  · exact readsWithin_fail [current, c1, c2, c3] (by decide) rfl (by simp) (by simp)
  · exact readsWithin_ok [current, c1, c2, c3] rfl (by simp) (by simp)

/-- **Every read advances by one to four bytes**, and a failure names the last byte it read. -/
theorem nextCodepoint_cases (codepoint : UInt32) (current : UInt8) (rest : List UInt8) :
    ReadsWithin (current :: rest) (nextCodepoint codepoint (current :: rest)) := by
  simp only [nextCodepoint]
  split_ifs
  · exact readsWithin_ok [current] rfl (by simp) (by simp)
  · exact readsWithin_readTwo current rest
  · exact readsWithin_readThree current rest
  · exact readsWithin_readFour current rest
  · exact readsWithin_fail [current] (by decide) rfl (by simp) (by simp)

/-! ## The values the branches assemble -/

theorem toNat_or_of_aligned {a b : UInt32} (i : Nat) (aligned : 2 ^ i ∣ a.toNat)
    (below : b.toNat < 2 ^ i) : (a ||| b).toNat = a.toNat + b.toNat := by
  obtain ⟨q, hq⟩ := aligned
  rw [UInt32.toNat_or, hq, Nat.two_pow_add_eq_or_of_lt below]

theorem toNat_shiftLeft_of_lt {a s : UInt32} {n : Nat} (below : a.toNat < 2 ^ n)
    (room : n + s.toNat < 32) : (a <<< s).toNat = a.toNat * 2 ^ s.toNat := by
  have fits : a.toNat * 2 ^ s.toNat < 2 ^ 32 :=
    calc a.toNat * 2 ^ s.toNat < 2 ^ n * 2 ^ s.toNat :=
          Nat.mul_lt_mul_of_pos_right below (Nat.two_pow_pos _)
      _ = 2 ^ (n + s.toNat) := (Nat.pow_add 2 n s.toNat).symm
      _ ≤ 2 ^ 32 := Nat.pow_le_pow_right (by omega) (by omega)
  rw [UInt32.toNat_shiftLeft, Nat.mod_eq_of_lt (show s.toNat < 32 by omega), Nat.shiftLeft_eq]
  exact Nat.mod_eq_of_lt fits

theorem toNat_continuationData_shift (c : UInt8) (s : UInt32) (room : s.toNat < 26) :
    (continuationData c <<< s).toNat = c.toNat % 64 * 2 ^ s.toNat := by
  have below : (continuationData c).toNat < 2 ^ 6 := by
    rw [toNat_continuationData]; omega
  rw [toNat_shiftLeft_of_lt below (by omega), toNat_continuationData]

theorem toNat_twoByteValue (c0 c1 : UInt8) :
    (extractAndShift c0 0xE0 6 ||| continuationData c1).toNat =
      c0.toNat % 32 * 64 + c1.toNat % 64 := by
  have lead : (extractAndShift c0 0xE0 6).toNat = c0.toNat % 32 * 64 := by
    have below : (extractBits c0 0xE0).toNat < 2 ^ 5 := by
      rw [toNat_extractBits_E0]; omega
    rw [extractAndShift, toNat_shiftLeft_of_lt below (by decide), toNat_extractBits_E0]
    rfl
  have last := toNat_continuationData c1
  rw [toNat_or_of_aligned 6 (by omega) (by omega), lead, last]

theorem toNat_threeByteValue (c0 c1 c2 : UInt8) :
    (extractAndShift c0 0xF0 12 ||| continuationData c1 <<< 6 ||| continuationData c2).toNat =
      c0.toNat % 16 * 4096 + c1.toNat % 64 * 64 + c2.toNat % 64 := by
  have lead : (extractAndShift c0 0xF0 12).toNat = c0.toNat % 16 * 4096 := by
    have below : (extractBits c0 0xF0).toNat < 2 ^ 4 := by
      rw [toNat_extractBits_F0]; omega
    rw [extractAndShift, toNat_shiftLeft_of_lt below (by decide), toNat_extractBits_F0]
    rfl
  have second : (continuationData c1 <<< 6).toNat = c1.toNat % 64 * 64 :=
    toNat_continuationData_shift c1 6 (by decide)
  have last := toNat_continuationData c2
  -- `|||` associates to the left: the lead and first continuation are joined first
  have upper : (extractAndShift c0 0xF0 12 ||| continuationData c1 <<< 6).toNat =
      c0.toNat % 16 * 4096 + c1.toNat % 64 * 64 := by
    rw [toNat_or_of_aligned 12 (by omega) (by omega), lead, second]
  rw [toNat_or_of_aligned 6 (by omega) (by omega), upper, last]

theorem toNat_fourByteValue (c0 c1 c2 c3 : UInt8) :
    (extractAndShift c0 0xF8 18 ||| continuationData c1 <<< 12 ||| continuationData c2 <<< 6 |||
        continuationData c3).toNat =
      c0.toNat % 8 * 262144 + c1.toNat % 64 * 4096 + c2.toNat % 64 * 64 + c3.toNat % 64 := by
  have lead : (extractAndShift c0 0xF8 18).toNat = c0.toNat % 8 * 262144 := by
    have below : (extractBits c0 0xF8).toNat < 2 ^ 3 := by
      rw [toNat_extractBits_F8]; omega
    rw [extractAndShift, toNat_shiftLeft_of_lt below (by decide), toNat_extractBits_F8]
    rfl
  have second : (continuationData c1 <<< 12).toNat = c1.toNat % 64 * 4096 :=
    toNat_continuationData_shift c1 12 (by decide)
  have third : (continuationData c2 <<< 6).toNat = c2.toNat % 64 * 64 :=
    toNat_continuationData_shift c2 6 (by decide)
  have last := toNat_continuationData c3
  have upper : (extractAndShift c0 0xF8 18 ||| continuationData c1 <<< 12).toNat =
      c0.toNat % 8 * 262144 + c1.toNat % 64 * 4096 := by
    rw [toNat_or_of_aligned 18 (by omega) (by omega), lead, second]
  have middle : (extractAndShift c0 0xF8 18 ||| continuationData c1 <<< 12 |||
      continuationData c2 <<< 6).toNat =
      c0.toNat % 8 * 262144 + c1.toNat % 64 * 4096 + c2.toNat % 64 * 64 := by
    rw [toNat_or_of_aligned 12 (by omega) (by omega), upper, third]
  rw [toNat_or_of_aligned 6 (by omega) (by omega), middle, last]

/-! ## Each branch on its bytes -/

/-- `next_codepoint` on a lead byte, with its class tests read as the ranges of the byte. -/
theorem nextCodepoint_cons (codepoint : UInt32) (c0 : UInt8) (rest : List UInt8) :
    nextCodepoint codepoint (c0 :: rest) =
      if c0.toNat < 0x80 then ⟨rest, UInt32.ofNat c0.toNat, Reason.ok⟩
      else if 0xC0 ≤ c0.toNat ∧ c0.toNat < 0xE0 then readTwo c0 rest
      else if 0xE0 ≤ c0.toNat ∧ c0.toNat < 0xF0 then readThree c0 rest
      else if 0xF0 ≤ c0.toNat ∧ c0.toNat < 0xF8 then readFour c0 rest
      else fail "Invalid initial byte seen" 1 rest := by
  have value : c0.toUInt32 = UInt32.ofNat c0.toNat := eq_ofNat_of_toNat (UInt8.toNat_toUInt32 c0)
  simp only [nextCodepoint, isStandalone_eq, isTwobyteStart_eq, isThreebyteStart_eq,
    isFourbyteStart_eq, decide_eq_true_eq, value]

/-- A lead byte `0xxxxxxx` is its own code point. -/
theorem nextCodepoint_standalone (codepoint : UInt32) {c0 : UInt8} (rest : List UInt8)
    (lead : c0.toNat < 0x80) :
    nextCodepoint codepoint (c0 :: rest) = ⟨rest, UInt32.ofNat c0.toNat, Reason.ok⟩ := by
  rw [nextCodepoint_cons, if_pos lead]

theorem nextCodepoint_twobyte (codepoint : UInt32) {c0 : UInt8} (rest : List UInt8)
    (lead : 0xC0 ≤ c0.toNat ∧ c0.toNat < 0xE0) :
    nextCodepoint codepoint (c0 :: rest) = readTwo c0 rest := by
  rw [nextCodepoint_cons, if_neg (by omega), if_pos lead]

theorem nextCodepoint_threebyte (codepoint : UInt32) {c0 : UInt8} (rest : List UInt8)
    (lead : 0xE0 ≤ c0.toNat ∧ c0.toNat < 0xF0) :
    nextCodepoint codepoint (c0 :: rest) = readThree c0 rest := by
  rw [nextCodepoint_cons, if_neg (by omega), if_neg (by omega), if_pos lead]

theorem nextCodepoint_fourbyte (codepoint : UInt32) {c0 : UInt8} (rest : List UInt8)
    (lead : 0xF0 ≤ c0.toNat ∧ c0.toNat < 0xF8) :
    nextCodepoint codepoint (c0 :: rest) = readFour c0 rest := by
  rw [nextCodepoint_cons, if_neg (by omega), if_neg (by omega), if_neg (by omega), if_pos lead]

/-- A continuation byte, or a byte from `0xF8` up, starts no sequence. -/
theorem nextCodepoint_invalid (codepoint : UInt32) {c0 : UInt8} (rest : List UInt8)
    (lead : 0x80 ≤ c0.toNat ∧ c0.toNat < 0xC0 ∨ 0xF8 ≤ c0.toNat) :
    nextCodepoint codepoint (c0 :: rest) = fail "Invalid initial byte seen" 1 rest := by
  rw [nextCodepoint_cons, if_neg (by omega), if_neg (by omega), if_neg (by omega),
    if_neg (by omega)]

theorem isContinuation_of_range {c : UInt8} (range : 0x80 ≤ c.toNat ∧ c.toNat < 0xC0) :
    isContinuation c = true := by
  rw [isContinuation_eq]; exact decide_eq_true range

theorem range_of_isContinuation {c : UInt8} (continuation : isContinuation c = true) :
    0x80 ≤ c.toNat ∧ c.toNat < 0xC0 := by
  rw [isContinuation_eq] at continuation; exact of_decide_eq_true continuation

/-- The two-byte branch on a continuation byte, in terms of the bytes' values. -/
theorem readTwo_cons (c0 : UInt8) {c1 : UInt8} (rest : List UInt8)
    (second : isContinuation c1 = true) :
    readTwo c0 (c1 :: rest) =
      if c0.toNat % 32 * 64 + c1.toNat % 64 < 0x80 then fail "Overlong encoding seen" 2 rest
      else ⟨rest, UInt32.ofNat (c0.toNat % 32 * 64 + c1.toNat % 64), Reason.ok⟩ := by
  have value := toNat_twoByteValue c0 c1
  simp only [readTwo, continuing_cons _ rest _ second, UInt32.lt_iff_toNat_lt]
  -- the test first, while the value is still the code's expression
  simp only [value]
  simp only [eq_ofNat_of_toNat value]
  rfl

theorem readThree_cons (c0 : UInt8) {c1 c2 : UInt8} (rest : List UInt8)
    (second : isContinuation c1 = true) (third : isContinuation c2 = true) :
    readThree c0 (c1 :: c2 :: rest) =
      if c0.toNat % 16 * 4096 + c1.toNat % 64 * 64 + c2.toNat % 64 < 0x800 then
        fail "Overlong encoding seen" 3 rest
      else ⟨rest, UInt32.ofNat (c0.toNat % 16 * 4096 + c1.toNat % 64 * 64 + c2.toNat % 64),
        Reason.ok⟩ := by
  have value := toNat_threeByteValue c0 c1 c2
  simp only [readThree, continuing_cons _ _ _ second, continuing_cons _ rest _ third,
    UInt32.lt_iff_toNat_lt]
  simp only [value]
  simp only [eq_ofNat_of_toNat value]
  rfl

theorem readFour_cons (c0 : UInt8) {c1 c2 c3 : UInt8} (rest : List UInt8)
    (second : isContinuation c1 = true) (third : isContinuation c2 = true)
    (fourth : isContinuation c3 = true) :
    readFour c0 (c1 :: c2 :: c3 :: rest) =
      if c0.toNat % 8 * 262144 + c1.toNat % 64 * 4096 + c2.toNat % 64 * 64 + c3.toNat % 64 <
          0x10000 then fail "Overlong encoding seen" 4 rest
      else if 0x10FFFF < c0.toNat % 8 * 262144 + c1.toNat % 64 * 4096 + c2.toNat % 64 * 64 +
          c3.toNat % 64 then fail "Non-Unicode character encoded (beyond U+10FFFF)" 4 rest
      else ⟨rest, UInt32.ofNat (c0.toNat % 8 * 262144 + c1.toNat % 64 * 4096 +
          c2.toNat % 64 * 64 + c3.toNat % 64), Reason.ok⟩ := by
  have value := toNat_fourByteValue c0 c1 c2 c3
  simp only [readFour, continuing_cons _ _ _ second, continuing_cons _ _ _ third,
    continuing_cons _ rest _ fourth, gt_iff_lt, UInt32.lt_iff_toNat_lt]
  simp only [value]
  simp only [eq_ofNat_of_toNat value]
  rfl

/-! ## Encodings read back

RFC 3629 encodes a value below U+110000 in the fewest of one to four bytes.  `encodeValue` is
that encoding by the formula of core's `String.utf8EncodeChar`, taken for every such value and
not only for scalar values, so that it covers the surrogates too. -/

/-- The shortest UTF-8 form of the value `v`. -/
def encodeValue (v : Nat) : List UInt8 :=
  if v ≤ 127 then [UInt8.ofNat v]
  else if v ≤ 2047 then [UInt8.ofNat (v / 64 % 32 + 192), UInt8.ofNat (v % 64 + 128)]
  else if v ≤ 65535 then
    [UInt8.ofNat (v / 4096 % 16 + 224), UInt8.ofNat (v / 64 % 64 + 128), UInt8.ofNat (v % 64 + 128)]
  else
    [UInt8.ofNat (v / 262144 % 8 + 240), UInt8.ofNat (v / 4096 % 64 + 128),
      UInt8.ofNat (v / 64 % 64 + 128), UInt8.ofNat (v % 64 + 128)]

theorem utf8EncodeChar_eq_encodeValue (c : Char) :
    String.utf8EncodeChar c = encodeValue c.val.toNat := rfl

/-- **The encoding of every value below U+110000 reads back as that value**, whatever follows
it. -/
theorem nextCodepoint_encodeValue (codepoint : UInt32) (rest : List UInt8) {v : Nat}
    (valid : v < 0x110000) :
    nextCodepoint codepoint (encodeValue v ++ rest) = ⟨rest, UInt32.ofNat v, Reason.ok⟩ := by
  unfold encodeValue
  split_ifs with one two three
  · rw [List.singleton_append, nextCodepoint_standalone codepoint rest
      (by rw [toNat_ofNat_byte (by omega)]; omega), toNat_ofNat_byte (by omega)]
  · have b0 := @toNat_ofNat_byte (v / 64 % 32 + 192) (by omega)
    have b1 := @toNat_ofNat_byte (v % 64 + 128) (by omega)
    rw [List.cons_append, List.cons_append, List.nil_append,
      nextCodepoint_twobyte codepoint _ (by omega),
      readTwo_cons _ rest (isContinuation_of_range (by omega)), b0, b1, if_neg (by omega),
      show (v / 64 % 32 + 192) % 32 * 64 + (v % 64 + 128) % 64 = v by omega]
  · have b0 := @toNat_ofNat_byte (v / 4096 % 16 + 224) (by omega)
    have b1 := @toNat_ofNat_byte (v / 64 % 64 + 128) (by omega)
    have b2 := @toNat_ofNat_byte (v % 64 + 128) (by omega)
    rw [List.cons_append, List.cons_append, List.cons_append, List.nil_append,
      nextCodepoint_threebyte codepoint _ (by omega),
      readThree_cons _ rest (isContinuation_of_range (by omega)) (isContinuation_of_range (by omega)),
      b0, b1, b2, if_neg (by omega),
      show (v / 4096 % 16 + 224) % 16 * 4096 + (v / 64 % 64 + 128) % 64 * 64 +
        (v % 64 + 128) % 64 = v by omega]
  · have b0 := @toNat_ofNat_byte (v / 262144 % 8 + 240) (by omega)
    have b1 := @toNat_ofNat_byte (v / 4096 % 64 + 128) (by omega)
    have b2 := @toNat_ofNat_byte (v / 64 % 64 + 128) (by omega)
    have b3 := @toNat_ofNat_byte (v % 64 + 128) (by omega)
    have assembled : (v / 262144 % 8 + 240) % 8 * 262144 + (v / 4096 % 64 + 128) % 64 * 4096 +
        (v / 64 % 64 + 128) % 64 * 64 + (v % 64 + 128) % 64 = v := by omega
    rw [List.cons_append, List.cons_append, List.cons_append, List.cons_append, List.nil_append,
      nextCodepoint_fourbyte codepoint _ (by omega),
      readFour_cons _ rest (isContinuation_of_range (by omega)) (isContinuation_of_range (by omega))
        (isContinuation_of_range (by omega))]
    simp only [b0, b1, b2, b3, assembled]
    rw [if_neg (by omega), if_neg (by omega)]

/-- A read that ended without a failure consumed the encoding of the value it wrote. -/
def ReadsEncoding (bytes : List UInt8) (decoded : Decoded) : Prop :=
  ∃ v, v < 0x110000 ∧ bytes = encodeValue v ++ decoded.rest ∧ decoded.codepoint = UInt32.ofNat v

theorem readTwo_ok_inv {c0 : UInt8} {rest : List UInt8} (lead : 0xC0 ≤ c0.toNat ∧ c0.toNat < 0xE0)
    (ok : (readTwo c0 rest).reason = Reason.ok) : ReadsEncoding (c0 :: rest) (readTwo c0 rest) := by
  obtain ⟨c1, rest1, rfl, second, -⟩ := continuing_ok_inv ok
  have r1 := range_of_isContinuation second
  rw [readTwo_cons c0 rest1 second] at ok ⊢
  split_ifs at ok ⊢ with overlong
  · exact absurd ok (fail_reason_ne_ok (by decide) 2 rest1)
  · refine ⟨_, by omega, ?_, rfl⟩
    rw [encodeValue, if_neg (by omega), if_pos (by omega)]
    simp only [List.cons_append, List.nil_append, List.cons.injEq, and_true]
    exact ⟨(ofNat_eq_of_toNat (by omega)).symm, (ofNat_eq_of_toNat (by omega)).symm⟩

theorem readThree_ok_inv {c0 : UInt8} {rest : List UInt8}
    (lead : 0xE0 ≤ c0.toNat ∧ c0.toNat < 0xF0) (ok : (readThree c0 rest).reason = Reason.ok) :
    ReadsEncoding (c0 :: rest) (readThree c0 rest) := by
  obtain ⟨c1, rest1, rfl, second, ok1⟩ := continuing_ok_inv ok
  obtain ⟨c2, rest2, rfl, third, -⟩ := continuing_ok_inv ok1
  have r1 := range_of_isContinuation second
  have r2 := range_of_isContinuation third
  rw [readThree_cons c0 rest2 second third] at ok ⊢
  split_ifs at ok ⊢ with overlong
  · exact absurd ok (fail_reason_ne_ok (by decide) 3 rest2)
  · refine ⟨_, by omega, ?_, rfl⟩
    rw [encodeValue, if_neg (by omega), if_neg (by omega), if_pos (by omega)]
    simp only [List.cons_append, List.nil_append, List.cons.injEq, and_true]
    exact ⟨(ofNat_eq_of_toNat (by omega)).symm, (ofNat_eq_of_toNat (by omega)).symm,
      (ofNat_eq_of_toNat (by omega)).symm⟩

theorem readFour_ok_inv {c0 : UInt8} {rest : List UInt8}
    (lead : 0xF0 ≤ c0.toNat ∧ c0.toNat < 0xF8) (ok : (readFour c0 rest).reason = Reason.ok) :
    ReadsEncoding (c0 :: rest) (readFour c0 rest) := by
  obtain ⟨c1, rest1, rfl, second, ok1⟩ := continuing_ok_inv ok
  obtain ⟨c2, rest2, rfl, third, ok2⟩ := continuing_ok_inv ok1
  obtain ⟨c3, rest3, rfl, fourth, -⟩ := continuing_ok_inv ok2
  have r1 := range_of_isContinuation second
  have r2 := range_of_isContinuation third
  have r3 := range_of_isContinuation fourth
  -- the value is written out in the statement of readFour_cons: a let there would have to be
  -- unfolded in the kernel, which then works through the arithmetic on the large literals
  rw [readFour_cons c0 rest3 second third fourth] at ok ⊢
  split_ifs at ok ⊢ with overlong beyond
  · exact absurd ok (fail_reason_ne_ok (by decide) 4 rest3)
  · exact absurd ok (fail_reason_ne_ok (by decide) 4 rest3)
  · refine ⟨_, by omega, ?_, rfl⟩
    rw [encodeValue, if_neg (by omega), if_neg (by omega), if_neg (by omega)]
    simp only [List.cons_append, List.nil_append, List.cons.injEq, and_true]
    exact ⟨(ofNat_eq_of_toNat (by omega)).symm, (ofNat_eq_of_toNat (by omega)).symm,
      (ofNat_eq_of_toNat (by omega)).symm, (ofNat_eq_of_toNat (by omega)).symm⟩

/-- **A read that ends without a failure has read one encoding**, of a value below U+110000. -/
theorem nextCodepoint_ok_inv (codepoint : UInt32) (current : UInt8) (rest : List UInt8)
    (ok : (nextCodepoint codepoint (current :: rest)).reason = Reason.ok) :
    ReadsEncoding (current :: rest) (nextCodepoint codepoint (current :: rest)) := by
  have byte := UInt8.toNat_lt current
  -- the ranges of the lead byte, in the order `next_codepoint` tests them
  by_cases one : current.toNat < 0x80
  · rw [nextCodepoint_standalone codepoint rest one]
    refine ⟨current.toNat, by omega, ?_, rfl⟩
    rw [encodeValue, if_pos (by omega), UInt8.ofNat_toNat]
    rfl
  by_cases two : 0xC0 ≤ current.toNat ∧ current.toNat < 0xE0
  · rw [nextCodepoint_twobyte codepoint rest two] at ok ⊢
    exact readTwo_ok_inv two ok
  by_cases three : 0xE0 ≤ current.toNat ∧ current.toNat < 0xF0
  · rw [nextCodepoint_threebyte codepoint rest three] at ok ⊢
    exact readThree_ok_inv three ok
  by_cases four : 0xF0 ≤ current.toNat ∧ current.toNat < 0xF8
  · rw [nextCodepoint_fourbyte codepoint rest four] at ok ⊢
    exact readFour_ok_inv four ok
  · rw [nextCodepoint_invalid codepoint rest (by omega)] at ok
    exact absurd ok (fail_reason_ne_ok (by decide) 1 rest)

end Utf8
end RethinkDB
