import Mathlib

/-!
# Base64 in the binary pseudotype

`pseudo_binary.cc` writes the data of an `r.binary` value as base64 (`encode_base64`) and reads
it back (`decode_base64`).  Bytes are `UInt8`, the C++ `char`s, and the text is bytes too.

`encode_base64` turns each group of three bytes into four characters while more than three
bytes remain, with a CRLF each time the output reaches 76 characters past the last one, and
then pads the last one to three bytes into a zeroed chunk, writing `=` for the characters it
does not need.  `decode_base64` fills a reused buffer of four values a round at a time
(`fill_chunk_values`), skipping blanks and stopping at the end or at `=`, and writes one byte
less than the values it filled.
-/

namespace RethinkDB
namespace Ql
namespace Pseudo

/-- `base64_map`. -/
def base64Map : List UInt8 :=
  "ABCDEFGHIJKLMNOPQRSTUVWXYZabcdefghijklmnopqrstuvwxyz0123456789+/".toList.map Char.toUInt8

/-- The line break `encode_base64` writes. -/
def crlf : List UInt8 := ['\r'.toUInt8, '\n'.toUInt8]

/-- `binary_to_base64_chunk`: three bytes as four characters of six bits each. -/
def binaryToBase64Chunk (in0 in1 in2 : UInt8) : List UInt8 :=
  [base64Map.getD ((in0 &&& 0xFC) >>> 2).toNat 0,
    base64Map.getD (((in0 &&& 0x03) <<< 4) + ((in1 &&& 0xF0) >>> 4)).toNat 0,
    base64Map.getD (((in1 &&& 0x0F) <<< 2) + ((in2 &&& 0xC0) >>> 6)).toNat 0,
    base64Map.getD (in2 &&& 0x3F).toNat 0]

/-- The loop of `encode_base64`: while more than three bytes remain, the next three go out as a
chunk, followed by a CRLF when the output then ends 76 characters past a line break.  It
returns the output and the bytes left. -/
def encodeGroups (res : List UInt8) : List UInt8 → List UInt8 × List UInt8
  | in0 :: in1 :: in2 :: rest =>
    if rest = [] then (res, [in0, in1, in2])
    else
      let res := res ++ binaryToBase64Chunk in0 in1 in2
      encodeGroups (if res.length % 78 = 76 then res ++ crlf else res) rest
  | remaining => (res, remaining)

/-- The end of `encode_base64`: the bytes left go into a zeroed `partial_chunk`, and the
characters from `remaining_bytes + 1` on are `=`. -/
def encodeLast (remaining : List UInt8) : List UInt8 :=
  let encodedChunk :=
    binaryToBase64Chunk (remaining.getD 0 0) (remaining.getD 1 0) (remaining.getD 2 0)
  encodedChunk.take (remaining.length + 1) ++ List.replicate (4 - (remaining.length + 1)) '='.toUInt8

/-- `encode_base64`. -/
def encodeBase64 (data : List UInt8) : List UInt8 :=
  if data.length = 0 then []
  else
    let (res, remaining) := encodeGroups [] data
    res ++ encodeLast remaining

/-- The errors `decode_base64` throws. -/
inductive DecodeError where
  | invalidCharacter (c : UInt8)
  | invalidLength
  | dataAfterPadding
  deriving DecidableEq, Repr

/-- The text of each error. -/
def DecodeError.message : DecodeError → String
  | .invalidCharacter c =>
      "Invalid base64 character found: '" ++ String.singleton (Char.ofNat c.toNat) ++ "'."
  | .invalidLength => "Invalid base64 length: 1 character remaining, cannot decode a full byte."
  | .dataAfterPadding => "Invalid base64 format, data found after padding character '='."

/-- `base64_value`. -/
def base64Value (c : UInt8) : Except DecodeError UInt8 :=
  if c ≥ 'A'.toUInt8 ∧ c ≤ 'Z'.toUInt8 then .ok (c - 'A'.toUInt8)
  else if c ≥ 'a'.toUInt8 ∧ c ≤ 'z'.toUInt8 then .ok (c - 'a'.toUInt8 + 26)
  else if c ≥ '0'.toUInt8 ∧ c ≤ '9'.toUInt8 then .ok (c - '0'.toUInt8 + 52)
  else if c = '+'.toUInt8 then .ok 62
  else if c = '/'.toUInt8 then .ok 63
  else .error (.invalidCharacter c)

/-- `base64_chunk_to_binary`: four values of six bits as three bytes. -/
def base64ChunkToBinary (chunkValues : List UInt8) : List UInt8 :=
  let in0 := chunkValues.getD 0 0
  let in1 := chunkValues.getD 1 0
  let in2 := chunkValues.getD 2 0
  let in3 := chunkValues.getD 3 0
  [(in0 <<< 2) + (in1 >>> 4), ((in1 &&& 0xF) <<< 4) + (in2 >>> 2), ((in2 &&& 0x3) <<< 6) + in3]

/-- The characters `fill_chunk_values` skips. -/
def isBlank (c : UInt8) : Bool :=
  c = '\r'.toUInt8 || c = '\n'.toUInt8 || c = ' '.toUInt8 || c = '\t'.toUInt8

/-- What `fill_chunk_values` leaves: where the input now starts, the buffer, `done` and
`chars_filled`. -/
structure FilledChunk where
  rest : List UInt8
  chunkValues : List UInt8
  done : Bool
  charsFilled : Nat

/-- `fill_chunk_values`: while fewer than four values are filled, the end of the input or an
`=` (left unread) ends the data, a blank is skipped, and any other character's value goes
into the buffer. -/
def fillChunkValues (input chunkValues : List UInt8) (charsFilled : Nat) :
    Except DecodeError FilledChunk :=
  if charsFilled < 4 then
    match input with
    | [] => .ok ⟨[], chunkValues, true, charsFilled⟩
    | c :: rest =>
      if c = '='.toUInt8 then .ok ⟨c :: rest, chunkValues, true, charsFilled⟩
      else if isBlank c then fillChunkValues rest chunkValues charsFilled
      else do
        let value ← base64Value c
        fillChunkValues rest (chunkValues.set charsFilled value) (charsFilled + 1)
  else .ok ⟨input, chunkValues, false, charsFilled⟩

section Fill

variable {input chunkValues : List UInt8} {charsFilled : Nat} {c : UInt8}

theorem fillChunkValues_of_four (full : ¬charsFilled < 4) :
    fillChunkValues input chunkValues charsFilled = .ok ⟨input, chunkValues, false, charsFilled⟩ := by
  unfold fillChunkValues
  rw [if_neg full]

theorem fillChunkValues_nil (fewer : charsFilled < 4) :
    fillChunkValues [] chunkValues charsFilled = .ok ⟨[], chunkValues, true, charsFilled⟩ := by
  rw [fillChunkValues, if_pos fewer]

theorem fillChunkValues_pad (fewer : charsFilled < 4) :
    fillChunkValues ('='.toUInt8 :: input) chunkValues charsFilled =
      .ok ⟨'='.toUInt8 :: input, chunkValues, true, charsFilled⟩ := by
  rw [fillChunkValues, if_pos fewer]
  exact if_pos rfl

theorem fillChunkValues_blank (fewer : charsFilled < 4) (notPad : c ≠ '='.toUInt8)
    (blank : isBlank c = true) :
    fillChunkValues (c :: input) chunkValues charsFilled =
      fillChunkValues input chunkValues charsFilled := by
  rw [fillChunkValues, if_pos fewer]
  simp only [if_neg notPad, blank, if_true]

theorem fillChunkValues_value (fewer : charsFilled < 4) (notPad : c ≠ '='.toUInt8)
    (notBlank : isBlank c = false) {value : UInt8} (ok : base64Value c = .ok value) :
    fillChunkValues (c :: input) chunkValues charsFilled =
      fillChunkValues input (chunkValues.set charsFilled value) (charsFilled + 1) := by
  rw [fillChunkValues, if_pos fewer]
  simp only [if_neg notPad, notBlank, Bool.false_eq_true, if_false, ok]
  rfl

theorem fillChunkValues_invalid (fewer : charsFilled < 4) (notPad : c ≠ '='.toUInt8)
    (notBlank : isBlank c = false) {e : DecodeError} (invalid : base64Value c = .error e) :
    fillChunkValues (c :: input) chunkValues charsFilled = .error e := by
  rw [fillChunkValues, if_pos fewer]
  simp only [if_neg notPad, notBlank, Bool.false_eq_true, if_false, invalid]
  rfl

/-- A round that does not end the data has read four characters. -/
theorem fillChunkValues_rest_lt {filled : FilledChunk}
    (fill : fillChunkValues input chunkValues charsFilled = .ok filled)
    (notDone : ¬filled.done = true) (fewer : charsFilled < 4) :
    filled.rest.length < input.length := by
  induction input generalizing chunkValues charsFilled with
  | nil =>
    rw [fillChunkValues_nil fewer] at fill
    cases fill
    exact absurd rfl notDone
  | cons c rest ih =>
    by_cases pad : c = '='.toUInt8
    · rw [pad, fillChunkValues_pad fewer] at fill
      cases fill
      exact absurd rfl notDone
    cases blank : isBlank c
    case true =>
      rw [fillChunkValues_blank fewer pad blank] at fill
      exact Nat.lt_succ_of_lt (ih fill fewer)
    case false =>
      cases value : base64Value c with
      | error e => rw [fillChunkValues_invalid fewer pad blank value] at fill; cases fill
      | ok value =>
        rw [fillChunkValues_value fewer pad blank value] at fill
        by_cases more : charsFilled + 1 < 4
        · exact Nat.lt_succ_of_lt (ih fill more)
        · rw [fillChunkValues_of_four more] at fill
          cases fill
          exact Nat.lt_succ_self _

end Fill

set_option linter.unusedVariables false in
/-- The loop of `decode_base64`: a round fills the buffer, and writes one byte less than the
values it filled; a round of one value is an error.  It returns the output and where the
input stopped. -/
def decodeLoop (input chunkValues res : List UInt8) :
    Except DecodeError (List UInt8 × List UInt8) :=
  match fill : fillChunkValues input chunkValues 0 with
  | .error e => .error e
  | .ok filled =>
    let decodedChunk := base64ChunkToBinary filled.chunkValues
    if filled.charsFilled = 1 then .error .invalidLength
    else
      let res := if filled.charsFilled ≠ 0 then res ++ decodedChunk.take (filled.charsFilled - 1)
        else res
      if done : filled.done then .ok (res, filled.rest)
      else decodeLoop filled.rest filled.chunkValues res
termination_by input.length
decreasing_by exact fillChunkValues_rest_lt fill done (by decide)

/-- `decode_base64`: after the loop only `=` and blanks may follow.  The buffer
`chunk_values` is not initialised in the source; `decodeLoop_chunkValues` shows that what it
holds is never written out. -/
def decodeBase64 (data : List UInt8) : Except DecodeError (List UInt8) := do
  let (res, rest) ← decodeLoop data [0, 0, 0, 0] []
  if rest.all fun c => c = '='.toUInt8 || isBlank c then .ok res else .error .dataAfterPadding

/-! ## Bytes and sextets -/

section Bytes

variable (b : UInt8)

/-- A mask of the low `k` bits. -/
theorem toNat_and_low (mask : UInt8) (k : Nat) (low : mask.toNat = 2 ^ k - 1) :
    (b &&& mask).toNat = b.toNat % 2 ^ k := by
  rw [UInt8.toNat_and, low, Nat.and_two_pow_sub_one_eq_mod]

theorem toNat_shiftRight_of_lt (s : UInt8) (lt : s.toNat < 8) :
    (b >>> s).toNat = b.toNat / 2 ^ s.toNat := by
  rw [UInt8.toNat_shiftRight, Nat.mod_eq_of_lt lt, Nat.shiftRight_eq_div_pow]

theorem toNat_shiftLeft_of_lt (s : UInt8) (lt : s.toNat < 8) :
    (b <<< s).toNat = b.toNat * 2 ^ s.toNat % 2 ^ 8 := by
  rw [UInt8.toNat_shiftLeft, Nat.mod_eq_of_lt lt, Nat.shiftLeft_eq]

/-- A mask of the high bits shifted down keeps what the shift keeps. -/
theorem toNat_and_high_shiftRight (mask s : UInt8) (lt : s.toNat < 8)
    (high : mask.toNat >>> s.toNat = 2 ^ (8 - s.toNat) - 1) :
    ((b &&& mask) >>> s).toNat = b.toNat / 2 ^ s.toNat := by
  rw [UInt8.toNat_shiftRight, Nat.mod_eq_of_lt lt, UInt8.toNat_and, Nat.shiftRight_and_distrib,
    high, Nat.and_two_pow_sub_one_eq_mod, Nat.shiftRight_eq_div_pow]
  apply Nat.mod_eq_of_lt
  apply Nat.div_lt_of_lt_mul
  rw [← Nat.pow_add, Nat.add_sub_cancel' lt.le]
  exact b.toNat_lt

end Bytes

/-- The four values of six bits in three bytes, the high bits of the first byte first. -/
def sextets (in0 in1 in2 : UInt8) : List Nat :=
  [in0.toNat / 4, in0.toNat % 4 * 16 + in1.toNat / 16, in1.toNat % 16 * 4 + in2.toNat / 64,
    in2.toNat % 64]

theorem sextets_lt (in0 in1 in2 : UInt8) : ∀ i ∈ sextets in0 in1 in2, i < 64 := by
  have := in0.toNat_lt
  have := in1.toNat_lt
  have := in2.toNat_lt
  simp only [sextets, List.mem_cons, List.not_mem_nil, or_false]
  omega

/-- `binary_to_base64_chunk` writes the characters of the sextets. -/
theorem binaryToBase64Chunk_eq (in0 in1 in2 : UInt8) :
    binaryToBase64Chunk in0 in1 in2 = (sextets in0 in1 in2).map fun i => base64Map.getD i 0 := by
  have bound0 := in0.toNat_lt
  have bound1 := in1.toNat_lt
  have bound2 := in2.toNat_lt
  have first : ((in0 &&& 0xFC) >>> 2).toNat = in0.toNat / 4 :=
    toNat_and_high_shiftRight in0 0xFC 2 (by decide) (by decide)
  have second : (((in0 &&& 0x03) <<< 4) + ((in1 &&& 0xF0) >>> 4)).toNat =
      in0.toNat % 4 * 16 + in1.toNat / 16 := by
    rw [UInt8.toNat_add, toNat_shiftLeft_of_lt _ 4 (by decide), toNat_and_low in0 0x03 2 (by decide),
      toNat_and_high_shiftRight in1 0xF0 4 (by decide) (by decide)]
    simp only [UInt8.reduceToNat, Nat.reducePow]
    omega
  have third : (((in1 &&& 0x0F) <<< 2) + ((in2 &&& 0xC0) >>> 6)).toNat =
      in1.toNat % 16 * 4 + in2.toNat / 64 := by
    rw [UInt8.toNat_add, toNat_shiftLeft_of_lt _ 2 (by decide), toNat_and_low in1 0x0F 4 (by decide),
      toNat_and_high_shiftRight in2 0xC0 6 (by decide) (by decide)]
    simp only [UInt8.reduceToNat, Nat.reducePow]
    omega
  have fourth : (in2 &&& 0x3F).toNat = in2.toNat % 64 := toNat_and_low in2 0x3F 6 (by decide)
  simp only [binaryToBase64Chunk, sextets, first, second, third, fourth, List.map_cons, List.map_nil]

/-- The bytes `base64_chunk_to_binary` writes, each from two neighbouring values. -/
theorem base64ChunkToBinary_eq (chunkValues : List UInt8) :
    (base64ChunkToBinary chunkValues).map UInt8.toNat =
      [((chunkValues.getD 0 0).toNat * 4 % 256 + (chunkValues.getD 1 0).toNat / 16) % 256,
        ((chunkValues.getD 1 0).toNat % 16 * 16 + (chunkValues.getD 2 0).toNat / 4) % 256,
        ((chunkValues.getD 2 0).toNat % 4 * 64 + (chunkValues.getD 3 0).toNat) % 256] := by
  simp only [base64ChunkToBinary, List.map_cons, List.map_nil, UInt8.toNat_add,
    toNat_shiftLeft_of_lt _ 2 (by decide), toNat_shiftLeft_of_lt _ 4 (by decide),
    toNat_shiftLeft_of_lt _ 6 (by decide), toNat_shiftRight_of_lt _ 4 (by decide),
    toNat_shiftRight_of_lt _ 2 (by decide), toNat_and_low _ 0xF 4 (by decide),
    toNat_and_low _ 0x3 2 (by decide), UInt8.reduceToNat, Nat.reducePow, List.cons.injEq, true_and,
    and_true]
  constructor <;> omega

/-- The values of the alphabet: each of the 64 characters is read back as its index, and is
neither `=` nor a blank. -/
theorem base64Map_getD {i : Nat} (small : i < 64) :
    base64Value (base64Map.getD i 0) = .ok (UInt8.ofNat i) ∧ base64Map.getD i 0 ≠ '='.toUInt8 ∧
      isBlank (base64Map.getD i 0) = false := by
  revert i
  set_option maxRecDepth 2000 in decide

/-- Decoding the sextets of three bytes gives the bytes back. -/
theorem base64ChunkToBinary_sextets (in0 in1 in2 : UInt8) :
    base64ChunkToBinary ((sextets in0 in1 in2).map UInt8.ofNat) = [in0, in1, in2] := by
  have bound0 := in0.toNat_lt
  have bound1 := in1.toNat_lt
  have bound2 := in2.toNat_lt
  apply List.map_injective_iff.mpr (fun _ _ same => UInt8.toNat_inj.mp same)
  rw [base64ChunkToBinary_eq]
  simp only [sextets, List.map_cons, List.map_nil, List.getD_cons_zero, List.getD_cons_succ,
    UInt8.toNat_ofNat', List.cons.injEq, and_true]
  omega

/-- The first `n - 1` bytes of a chunk read only its first `n` values. -/
theorem take_base64ChunkToBinary {values values' : List UInt8} {n : Nat} (atMost : n ≤ 4)
    (agree : ∀ j < n, values.getD j 0 = values'.getD j 0) :
    (base64ChunkToBinary values).take (n - 1) = (base64ChunkToBinary values').take (n - 1) := by
  interval_cases n
  · rfl
  · rfl
  · simp only [base64ChunkToBinary, agree 0 (by omega), agree 1 (by omega), Nat.reduceSub,
      List.take_succ_cons, List.take_zero]
  · simp only [base64ChunkToBinary, agree 0 (by omega), agree 1 (by omega), agree 2 (by omega),
      Nat.reduceSub, List.take_succ_cons, List.take_zero]
  · simp only [base64ChunkToBinary, agree 0 (by omega), agree 1 (by omega), agree 2 (by omega),
      agree 3 (by omega)]

theorem getD_set_of_ne {l : List UInt8} {i j : Nat} {a : UInt8} (ne : i ≠ j) :
    (l.set i a).getD j 0 = l.getD j 0 := by
  simp [List.getD_eq_getElem?_getD, ne]

theorem getD_set_self {l : List UInt8} {i : Nat} {a : UInt8} (lt : i < l.length) :
    (l.set i a).getD i 0 = a := by
  simp [List.getD_eq_getElem?_getD, lt]

/-! ## A round of `fill_chunk_values` -/

section Round

variable {input chunkValues : List UInt8} {charsFilled : Nat}

/-- The characters of values below 64 go into the buffer from `charsFilled` on. -/
theorem fillChunkValues_chars {values : List Nat} (small : ∀ i ∈ values, i < 64)
    (room : charsFilled + values.length ≤ 4) (size : chunkValues.length = 4) :
    fillChunkValues (values.map (fun i => base64Map.getD i 0) ++ input) chunkValues charsFilled =
      fillChunkValues input
        (chunkValues.take charsFilled ++ values.map UInt8.ofNat ++
          chunkValues.drop (charsFilled + values.length))
        (charsFilled + values.length) := by
  induction values generalizing chunkValues charsFilled with
  | nil => simp
  | cons i more ih =>
    obtain ⟨value, notPad, notBlank⟩ := base64Map_getD (small i List.mem_cons_self)
    have fewer : charsFilled < 4 := by simp only [List.length_cons] at room; omega
    have setSize : (chunkValues.set charsFilled (UInt8.ofNat i)).length = 4 := by
      rw [List.length_set, size]
    rw [List.map_cons, List.cons_append, fillChunkValues_value fewer notPad notBlank value,
      ih (fun j member => small j (List.mem_cons_of_mem _ member))
        (by simp only [List.length_cons] at room; omega) setSize]
    -- the buffer after one value is the old one with that value at `charsFilled`
    have split : chunkValues.set charsFilled (UInt8.ofNat i) =
        chunkValues.take charsFilled ++ UInt8.ofNat i :: chunkValues.drop (charsFilled + 1) := by
      rw [List.set_eq_take_append_cons_drop, if_pos (size ▸ fewer)]
    have prefixSize : (chunkValues.take charsFilled).length = charsFilled := by
      simp only [List.length_take, size]
      omega
    have before : (chunkValues.take charsFilled).take (charsFilled + 1) = chunkValues.take charsFilled :=
      List.take_of_length_le (by omega)
    have between : (chunkValues.take charsFilled).drop (charsFilled + 1 + more.length) = [] :=
      List.drop_eq_nil_of_le (by omega)
    have after : (UInt8.ofNat i :: chunkValues.drop (charsFilled + 1)).drop
        (charsFilled + 1 + more.length - charsFilled) = chunkValues.drop (charsFilled + (more.length + 1)) := by
      rw [show charsFilled + 1 + more.length - charsFilled = more.length + 1 by omega,
        List.drop_succ_cons, List.drop_drop]
      congr 1
      omega
    rw [split]
    congr 1
    · simp only [List.take_append, List.drop_append, prefixSize, before, between, after,
        Nat.add_sub_cancel_left, List.take_succ_cons, List.take_zero, List.nil_append, List.map_cons,
        List.length_cons, List.append_assoc, List.cons_append]
    · simp only [List.length_cons]
      omega

/-- Two rounds that read the same characters: they stop at the same place in the same way,
with the same values filled in. -/
structure SameRound (filled filled' : FilledChunk) : Prop where
  rest : filled.rest = filled'.rest
  done : filled.done = filled'.done
  charsFilled : filled.charsFilled = filled'.charsFilled
  values : ∀ j < filled.charsFilled, filled.chunkValues.getD j 0 = filled'.chunkValues.getD j 0

/-- Two results of `fill_chunk_values` that agree: the same error, or rounds that agree. -/
def SameResult : Except DecodeError FilledChunk → Except DecodeError FilledChunk → Prop
  | .error e, .error e' => e = e'
  | .ok filled, .ok filled' => SameRound filled filled'
  | _, _ => False

/-- A round reads the buffer only where it writes it: from two buffers that agree below
`charsFilled` it does the same. -/
theorem fillChunkValues_sameResult {chunkValues' : List UInt8} (size : chunkValues.length = 4)
    (size' : chunkValues'.length = 4)
    (agree : ∀ j < charsFilled, chunkValues.getD j 0 = chunkValues'.getD j 0) :
    SameResult (fillChunkValues input chunkValues charsFilled)
      (fillChunkValues input chunkValues' charsFilled) := by
  by_cases fewer : charsFilled < 4
  case neg =>
    rw [fillChunkValues_of_four fewer, fillChunkValues_of_four fewer]
    exact ⟨rfl, rfl, rfl, agree⟩
  induction input generalizing chunkValues chunkValues' charsFilled with
  | nil =>
    rw [fillChunkValues_nil fewer, fillChunkValues_nil fewer]
    exact ⟨rfl, rfl, rfl, agree⟩
  | cons c rest ih =>
    by_cases pad : c = '='.toUInt8
    · rw [pad, fillChunkValues_pad fewer, fillChunkValues_pad fewer]
      exact ⟨rfl, rfl, rfl, agree⟩
    cases blank : isBlank c
    case true =>
      rw [fillChunkValues_blank fewer pad blank, fillChunkValues_blank fewer pad blank]
      exact ih size size' agree fewer
    case false =>
      cases read : base64Value c with
      | error e =>
        rw [fillChunkValues_invalid fewer pad blank read, fillChunkValues_invalid fewer pad blank read]
        rfl
      | ok value =>
        rw [fillChunkValues_value fewer pad blank read, fillChunkValues_value fewer pad blank read]
        -- both buffers now hold the value at `charsFilled` as well
        have agreeSet : ∀ j < charsFilled + 1, (chunkValues.set charsFilled value).getD j 0 =
            (chunkValues'.set charsFilled value).getD j 0 := by
          intro j below
          by_cases here : j = charsFilled
          · rw [here, getD_set_self (by omega), getD_set_self (by omega)]
          · rw [getD_set_of_ne (Ne.symm here), getD_set_of_ne (Ne.symm here), agree j (by omega)]
        by_cases more : charsFilled + 1 < 4
        · exact ih (by rw [List.length_set, size]) (by rw [List.length_set, size']) agreeSet more
        · rw [fillChunkValues_of_four more, fillChunkValues_of_four more]
          exact ⟨rfl, rfl, rfl, agreeSet⟩

/-- A round fills at most four values, into a buffer that keeps its size. -/
theorem fillChunkValues_bounds {filled : FilledChunk}
    (fill : fillChunkValues input chunkValues charsFilled = .ok filled) (atMost : charsFilled ≤ 4) :
    filled.charsFilled ≤ 4 ∧ filled.chunkValues.length = chunkValues.length ∧
      (filled.done = false → filled.charsFilled = 4) := by
  by_cases fewer : charsFilled < 4
  case neg =>
    rw [fillChunkValues_of_four fewer] at fill
    cases fill
    exact ⟨atMost, rfl, fun _ => by dsimp only; omega⟩
  induction input generalizing chunkValues charsFilled with
  | nil =>
    rw [fillChunkValues_nil fewer] at fill
    cases fill
    exact ⟨atMost, rfl, fun notDone => by cases notDone⟩
  | cons c rest ih =>
    by_cases pad : c = '='.toUInt8
    · rw [pad, fillChunkValues_pad fewer] at fill
      cases fill
      exact ⟨atMost, rfl, fun notDone => by cases notDone⟩
    cases blank : isBlank c
    case true =>
      rw [fillChunkValues_blank fewer pad blank] at fill
      exact ih fill atMost fewer
    case false =>
      cases read : base64Value c with
      | error e => rw [fillChunkValues_invalid fewer pad blank read] at fill; cases fill
      | ok value =>
        rw [fillChunkValues_value fewer pad blank read] at fill
        by_cases more : charsFilled + 1 < 4
        · obtain ⟨bound, size, four⟩ := ih fill (by omega) more
          exact ⟨bound, size.trans List.length_set, four⟩
        · rw [fillChunkValues_of_four more] at fill
          cases fill
          exact ⟨by dsimp only; omega, List.length_set, fun _ => by dsimp only; omega⟩

end Round

/-! ## The loop of `decode_base64` -/

section Loop

variable {input chunkValues res : List UInt8}

theorem decodeLoop_of_error {e : DecodeError} (fill : fillChunkValues input chunkValues 0 = .error e) :
    decodeLoop input chunkValues res = .error e := by
  unfold decodeLoop
  split
  next e' fill' =>
    rw [fill] at fill'
    cases fill'
    rfl
  next filled fill' =>
    rw [fill] at fill'
    cases fill'

/-- A round writes one byte less than the values it filled, and the loop goes on unless the
data has ended. -/
theorem decodeLoop_of_ok {filled : FilledChunk} (fill : fillChunkValues input chunkValues 0 = .ok filled) :
    decodeLoop input chunkValues res =
      if filled.charsFilled = 1 then .error .invalidLength
      else if filled.done then
        .ok (res ++ (base64ChunkToBinary filled.chunkValues).take (filled.charsFilled - 1), filled.rest)
      else decodeLoop filled.rest filled.chunkValues
        (res ++ (base64ChunkToBinary filled.chunkValues).take (filled.charsFilled - 1)) := by
  -- `chars_filled == 0` writes nothing, as `take 0` does
  have emitted : (if filled.charsFilled ≠ 0 then
        res ++ (base64ChunkToBinary filled.chunkValues).take (filled.charsFilled - 1) else res) =
      res ++ (base64ChunkToBinary filled.chunkValues).take (filled.charsFilled - 1) := by
    split
    · rfl
    · next zero => simp [not_not.mp zero]
  conv_lhs => unfold decodeLoop
  split
  next e fill' =>
    rw [fill] at fill'
    cases fill'
  next filled' fill' =>
    rw [fill] at fill'
    cases fill'
    simp only [emitted, dite_eq_ite]

/-- The loop depends on the input only through the round it reads there. -/
theorem decodeLoop_congr {input' : List UInt8}
    (same : fillChunkValues input chunkValues 0 = fillChunkValues input' chunkValues 0) :
    decodeLoop input chunkValues res = decodeLoop input' chunkValues res := by
  cases fill : fillChunkValues input chunkValues 0 with
  | error e => rw [decodeLoop_of_error fill, decodeLoop_of_error (same.symm.trans fill)]
  | ok filled => rw [decodeLoop_of_ok fill, decodeLoop_of_ok (same.symm.trans fill)]

/-- The values a buffer holds before a round are never written out: the loop gives the same
from any two buffers of four values. -/
theorem decodeLoop_chunkValues {chunkValues' : List UInt8} (size : chunkValues.length = 4)
    (size' : chunkValues'.length = 4) :
    decodeLoop input chunkValues res = decodeLoop input chunkValues' res := by
  induction h : input.length using Nat.strong_induction_on
    generalizing input chunkValues chunkValues' res with
  | _ n ih =>
  have same : SameResult (fillChunkValues input chunkValues 0) (fillChunkValues input chunkValues' 0) :=
    fillChunkValues_sameResult size size' (fun j below => absurd below (Nat.not_lt_zero j))
  cases fill : fillChunkValues input chunkValues 0 with
  | error e =>
    cases fill' : fillChunkValues input chunkValues' 0 with
    | error e' =>
      rw [fill, fill'] at same
      rw [decodeLoop_of_error fill, decodeLoop_of_error fill', show e = e' from same]
    | ok filled' =>
      rw [fill, fill'] at same
      exact same.elim
  | ok filled =>
    cases fill' : fillChunkValues input chunkValues' 0 with
    | error e' =>
      rw [fill, fill'] at same
      exact same.elim
    | ok filled' =>
      rw [fill, fill'] at same
      obtain ⟨sameRest, sameDone, sameCount, sameValues⟩ := same
      have bounds := fillChunkValues_bounds fill (Nat.zero_le 4)
      have bounds' := fillChunkValues_bounds fill' (Nat.zero_le 4)
      rw [decodeLoop_of_ok fill, decodeLoop_of_ok fill', ← sameRest, ← sameDone, ← sameCount,
        take_base64ChunkToBinary bounds.1 sameValues]
      by_cases one : filled.charsFilled = 1
      · rw [if_pos one, if_pos one]
      by_cases ended : filled.done = true
      · rw [if_neg one, if_pos ended, if_neg one, if_pos ended]
      rw [if_neg one, if_neg ended, if_neg one, if_neg ended]
      -- the next round starts from what this one left, shorter than the input
      exact ih filled.rest.length (h ▸ fillChunkValues_rest_lt fill ended (by decide))
        (bounds.2.1.trans size) (bounds'.2.1.trans size') rfl

end Loop

/-! ## Round trip -/

/-- Text that the loop reads as `bytes`, whatever follows it. -/
def Decodes (text bytes : List UInt8) : Prop :=
  ∀ rest chunkValues res, chunkValues.length = 4 →
    decodeLoop (text ++ rest) chunkValues res = decodeLoop rest chunkValues (res ++ bytes)

theorem decodes_nil : Decodes [] [] := by
  intro rest chunkValues res _
  rw [List.nil_append, List.append_nil]

theorem Decodes.append {text text' bytes bytes' : List UInt8} (first : Decodes text bytes)
    (second : Decodes text' bytes') : Decodes (text ++ text') (bytes ++ bytes') := by
  intro rest chunkValues res size
  rw [List.append_assoc, first _ _ _ size, second _ _ _ size, List.append_assoc]

theorem decodes_blank {c : UInt8} (blank : isBlank c = true) : Decodes [c] [] := by
  intro rest chunkValues res _
  have notPad : c ≠ '='.toUInt8 := by
    rintro rfl
    exact absurd blank (by decide)
  rw [List.append_nil]
  exact decodeLoop_congr (fillChunkValues_blank (by decide) notPad blank)

theorem decodes_crlf : Decodes crlf [] :=
  (decodes_blank (by decide)).append (decodes_blank (by decide))

/-- A chunk of four characters reads as the three bytes it encodes. -/
theorem decodes_chunk (in0 in1 in2 : UInt8) : Decodes (binaryToBase64Chunk in0 in1 in2) [in0, in1, in2] := by
  intro rest chunkValues res size
  have values : chunkValues.take 0 ++ (sextets in0 in1 in2).map UInt8.ofNat ++
      chunkValues.drop (0 + (sextets in0 in1 in2).length) = (sextets in0 in1 in2).map UInt8.ofNat := by
    rw [List.drop_eq_nil_of_le (by simp [sextets, size])]
    simp
  have read : fillChunkValues (binaryToBase64Chunk in0 in1 in2 ++ rest) chunkValues 0 =
      .ok ⟨rest, (sextets in0 in1 in2).map UInt8.ofNat, false, 4⟩ := by
    rw [binaryToBase64Chunk_eq, fillChunkValues_chars (sextets_lt in0 in1 in2) (by simp [sextets]) size,
      values]
    exact fillChunkValues_of_four (by simp [sextets])
  rw [decodeLoop_of_ok read, if_neg (by simp), if_neg (by simp), base64ChunkToBinary_sextets]
  exact decodeLoop_chunkValues (by simp [sextets]) size


/-- The loop of `encode_base64` writes text that reads as the bytes it took, and leaves one to
three bytes. -/
theorem encodeGroups_decodes (res data : List UInt8) (nonempty : data ≠ []) :
    ∃ body consumed, (encodeGroups res data).1 = res ++ body ∧
      data = consumed ++ (encodeGroups res data).2 ∧ Decodes body consumed ∧
      (encodeGroups res data).2 ≠ [] ∧ (encodeGroups res data).2.length ≤ 3 := by
  fun_induction encodeGroups res data with
  | case1 res in0 in1 in2 =>
    exact ⟨[], [], (List.append_nil _).symm, rfl, decodes_nil, List.cons_ne_nil _ _, by simp⟩
  | case2 res in0 in1 in2 rest more chunked ih =>
    obtain ⟨body, consumed, out, taken, decodes, left, short⟩ := ih more
    -- the CRLF after the chunk, if any, reads as nothing
    obtain ⟨separator, separated, separatorDecodes⟩ : ∃ separator,
        (if chunked.length % 78 = 76 then chunked ++ crlf else chunked) = chunked ++ separator ∧
          Decodes separator [] := by
      split
      · exact ⟨crlf, rfl, decodes_crlf⟩
      · exact ⟨[], (List.append_nil _).symm, decodes_nil⟩
    have read := ((decodes_chunk in0 in1 in2).append separatorDecodes).append decodes
    rw [List.append_nil] at read
    refine ⟨binaryToBase64Chunk in0 in1 in2 ++ separator ++ body, [in0, in1, in2] ++ consumed, ?_, ?_,
      read, left, short⟩
    · rw [out, separated]
      simp only [chunked, List.append_assoc]
    · rw [List.append_assoc, ← taken]
      rfl
  | case3 res remaining notGroup =>
    refine ⟨[], [], (List.append_nil _).symm, rfl, decodes_nil, nonempty, ?_⟩
    rcases remaining with _ | ⟨in0, _ | ⟨in1, _ | ⟨in2, rest⟩⟩⟩
    · exact absurd rfl nonempty
    · simp
    · simp
    · exact (notGroup in0 in1 in2 rest rfl).elim

/-- The last chunk of `encode_base64` reads as the bytes left, and the loop stops before its
padding. -/
theorem decodeLoop_encodeLast {remaining chunkValues res : List UInt8} (nonempty : remaining ≠ [])
    (short : remaining.length ≤ 3) (size : chunkValues.length = 4) :
    decodeLoop (encodeLast remaining) chunkValues res =
      .ok (res ++ remaining, List.replicate (3 - remaining.length) '='.toUInt8) := by
  have positive : 0 < remaining.length := List.length_pos_iff.mpr nonempty
  -- the sextets of the bytes left, zero-padded to three, of which `remaining_bytes + 1` are written
  set sixes := sextets (remaining.getD 0 0) (remaining.getD 1 0) (remaining.getD 2 0) with sixesEq
  set written := sixes.take (remaining.length + 1) with writtenEq
  set padding := List.replicate (3 - remaining.length) '='.toUInt8
  have count : written.length = remaining.length + 1 := by
    simp only [written, List.length_take, sixes, sextets, List.length_cons, List.length_nil]
    omega
  have text : encodeLast remaining = written.map (fun i => base64Map.getD i 0) ++ padding := by
    simp only [encodeLast, binaryToBase64Chunk_eq, List.map_take, written, sixes, padding]
    congr 2
    omega
  set buffer := chunkValues.take 0 ++ written.map UInt8.ofNat ++ chunkValues.drop (0 + written.length)
  have read : fillChunkValues (encodeLast remaining) chunkValues 0 =
      fillChunkValues padding buffer (0 + written.length) := by
    rw [text]
    exact fillChunkValues_chars (fun i member => sextets_lt _ _ _ i (List.mem_of_mem_take member))
      (by omega) size
  -- the bytes written are those left
  have agree : ∀ j < remaining.length + 1, buffer.getD j 0 = (sixes.map UInt8.ofNat).getD j 0 := by
    intro j below
    simp only [buffer, List.take_zero, List.nil_append]
    rw [List.getD_append _ _ _ _ (by rw [List.length_map, count]; exact below), writtenEq, List.map_take]
    simp [List.getD_eq_getElem?_getD, below]
  have bytes : (base64ChunkToBinary buffer).take remaining.length = remaining := by
    have same : (base64ChunkToBinary buffer).take (remaining.length + 1 - 1) =
        (base64ChunkToBinary (sixes.map UInt8.ofNat)).take (remaining.length + 1 - 1) :=
      take_base64ChunkToBinary (by omega) agree
    rw [Nat.add_sub_cancel, sixesEq, base64ChunkToBinary_sextets] at same
    rw [same]
    rcases remaining with _ | ⟨in0, _ | ⟨in1, _ | ⟨in2, _ | ⟨in3, rest⟩⟩⟩⟩
    · exact absurd rfl nonempty
    · rfl
    · rfl
    · rfl
    · simp only [List.length_cons] at short
      omega
  by_cases full : remaining.length = 3
  · -- four characters and the end of the input: a round of four, then an empty one
    have empty : padding = [] := by simp only [padding, full, Nat.sub_self, List.replicate_zero]
    have four : fillChunkValues (encodeLast remaining) chunkValues 0 = .ok ⟨[], buffer, false, 4⟩ := by
      rw [read, empty, count, full]
      exact fillChunkValues_of_four (by decide)
    have last : fillChunkValues [] buffer 0 = .ok ⟨[], buffer, true, 0⟩ := fillChunkValues_nil (by decide)
    rw [decodeLoop_of_ok four, if_neg (by simp), if_neg (by simp), decodeLoop_of_ok last, if_neg (by simp),
      if_pos rfl]
    dsimp only
    rw [show 4 - 1 = remaining.length by omega, bytes, empty]
    simp
  · -- fewer characters, then `=`
    have padded : padding = '='.toUInt8 :: List.replicate (2 - remaining.length) '='.toUInt8 := by
      simp only [padding]
      rw [show 3 - remaining.length = 2 - remaining.length + 1 by omega, List.replicate_succ]
    have stop : fillChunkValues (encodeLast remaining) chunkValues 0 =
        .ok ⟨padding, buffer, true, remaining.length + 1⟩ := by
      rw [read, count, Nat.zero_add, padded]
      exact fillChunkValues_pad (by omega)
    rw [decodeLoop_of_ok stop, if_neg (by dsimp only; omega), if_pos rfl]
    dsimp only
    rw [Nat.add_sub_cancel, bytes]

/-- `decode_base64` returns what its loop wrote when only `=` and blanks follow. -/
theorem decodeBase64_of_loop {data res rest : List UInt8}
    (loop : decodeLoop data [0, 0, 0, 0] [] = .ok (res, rest))
    (trailing : rest.all (fun c => c = '='.toUInt8 || isBlank c) = true) :
    decodeBase64 data = .ok res := by
  unfold decodeBase64
  rw [loop]
  exact if_pos trailing

/-- `decode_base64` reads back every byte string `encode_base64` writes. -/
theorem decodeBase64_encodeBase64 (data : List UInt8) : decodeBase64 (encodeBase64 data) = .ok data := by
  by_cases empty : data = []
  · subst empty
    have loop : decodeLoop [] [0, 0, 0, 0] [] = .ok ([], []) := by
      rw [decodeLoop_of_ok (fillChunkValues_nil (by decide))]
      rfl
    exact decodeBase64_of_loop loop rfl
  · obtain ⟨body, consumed, out, taken, decodes, left, short⟩ := encodeGroups_decodes [] data empty
    have encoded : encodeBase64 data = body ++ encodeLast (encodeGroups [] data).2 := by
      rw [encodeBase64, if_neg (by simpa using empty)]
      cases groups : encodeGroups [] data with
      | mk written remaining =>
        rw [groups, List.nil_append] at out
        rw [show written = body from out]
    have loop : decodeLoop (encodeBase64 data) [0, 0, 0, 0] [] =
        .ok (data, List.replicate (3 - (encodeGroups [] data).2.length) '='.toUInt8) := by
      rw [encoded, decodes _ _ _ rfl, decodeLoop_encodeLast left short rfl, List.nil_append, ← taken]
    exact decodeBase64_of_loop loop (by simp)

/-- Base64 in `r.binary` reads back every byte string it writes, across its line breaks and
its padding, and `decode_base64` never writes out a value of its buffer that the round did not
fill: from any two buffers of four values its loop does the same. -/
theorem base64_round_trip :
    (∀ data, decodeBase64 (encodeBase64 data) = .ok data) ∧
      ∀ input chunkValues chunkValues' res : List UInt8, chunkValues.length = 4 →
        chunkValues'.length = 4 → decodeLoop input chunkValues res = decodeLoop input chunkValues' res :=
  ⟨decodeBase64_encodeBase64, fun _ _ _ _ size size' => decodeLoop_chunkValues size size'⟩

example : encodeBase64 ("Man".toList.map Char.toUInt8) = "TWFu".toList.map Char.toUInt8 := by
  decide

example : encodeBase64 ("Ma".toList.map Char.toUInt8) = "TWE=".toList.map Char.toUInt8 := by
  decide

example : decodeBase64 ("TWE=\r\n".toList.map Char.toUInt8) = .ok ("Ma".toList.map Char.toUInt8) := by
  decide +kernel

end Pseudo
end Ql
end RethinkDB
