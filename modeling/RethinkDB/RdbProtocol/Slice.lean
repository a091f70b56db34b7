import Mathlib

/-!
# Slicing arrays, binaries and streams

`slice_term_t` (`terms/arr.cc`) turns the bounds of `r.slice` into positions in three ways.
Arrays and binaries go through `canon_helper`, where a negative index counts from the end and
one before the start is out of bounds (`canonicalize`); an array slice is then built element by
element in a `datum_array_builder_t`, which checks the array size limit at every element, and a
binary slice is cut out of the bytes at once.  Streams refuse negative indices and read a right
index of `-1` as the largest `uint64_t`; their slice is a `slice_datum_stream_t`
(`datum_stream.cc`), which counts the elements its source has produced and trims the batches
that cross either bound.

Indices are the `int64_t`s of the source as integers; positions are `uint64_t`s and natural
numbers here, as none of them wraps (every one is at most `2^63`, or the largest `uint64_t`).
Arrays are lists of elements of any type, and a binary is its list of bytes.
-/

namespace RethinkDB
namespace Ql

variable {α : Type}

/-- The errors of slicing. -/
inductive SliceError where
  | arrayOverSizeLimit (limit : Nat)
  | negativeLeftIndex
  | rightIndexBelowMinusOne
  | openRightIndexMinusOne
  deriving DecidableEq, Repr

/-- The text of each error. -/
def SliceError.message : SliceError → String
  | .arrayOverSizeLimit limit => "Array over size limit `" ++ toString limit ++ "`."
  | .negativeLeftIndex => "Cannot use a negative left index on a stream."
  | .rightIndexBelowMinusOne => "Cannot use a right index < -1 on a stream."
  | .openRightIndexMinusOne => "Cannot slice to an open right index of -1 on a stream."

/-- `canonicalize` with an `oob_out`: the literal index of a possibly negative `index` into
`size` elements, and whether it lies before the start (the index is then `0`). -/
def canonicalize (index : Int) (size : Nat) : Nat × Bool :=
  if index ≥ 0 then (index.toNat, false)
  else if (-index).toNat > size then (0, true)
  else (((size : Int) + index).toNat, false)

/-- `slice_term_t::canon_helper`: whether the index was out of bounds, and the position, one
further on for an open left bound or a closed right one. -/
def canonHelper (size : Nat) (indexOpen : Bool) (fakeIndex : Int) (isLeft : Bool) : Bool × Nat :=
  let (realIndex, indexOob) := canonicalize fakeIndex size
  (indexOob, if indexOpen = isLeft then realIndex + 1 else realIndex)

/-- `datum_array_builder_t::add`: the element goes in, then `rcheck_array_size_datum`. -/
def arrayBuilderAdd (limit : Nat) (vector : List α) (val : α) : Except SliceError (List α) :=
  let vector := vector ++ [val]
  if vector.length ≤ limit then .ok vector else .error (.arrayOverSizeLimit limit)

/-- The loop of `slice_array`, `for (i = real_l; i < real_r; ++i)`, which stops at the end of the
array and otherwise adds `arr[i]`: `remaining` is `real_r - i` and `rest` the array from `i`. -/
def sliceArrayLoop (limit : Nat) (out : List α) : Nat → List α → Except SliceError (List α)
  | 0, _ => .ok out
  | _ + 1, [] => .ok out
  | remaining + 1, x :: rest => do
    let out ← arrayBuilderAdd limit out x
    sliceArrayLoop limit out remaining rest

/-- `slice_term_t::slice_array`, with the array size limit of the query. -/
def sliceArray (limit : Nat) (arr : List α) (leftOpen : Bool) (fakeL : Int) (rightOpen : Bool)
    (fakeR : Int) : Except SliceError (List α) :=
  let (oobL, realL) := canonHelper arr.length leftOpen fakeL true
  let realL := if oobL then 0 else realL
  let (oobR, realR) := canonHelper arr.length rightOpen fakeR false
  if oobR then .ok []
  else sliceArrayLoop limit [] (realR - realL) (arr.drop realL)

/-- `slice_term_t::slice_binary`: the right position clamped to the data, and the bytes from the
left one up to it. -/
def sliceBinary (data : List UInt8) (leftOpen : Bool) (fakeL : Int) (rightOpen : Bool)
    (fakeR : Int) : List UInt8 :=
  let (oobL, realL) := canonHelper data.length leftOpen fakeL true
  let realL := if oobL then 0 else realL
  let (oobR, realR) := canonHelper data.length rightOpen fakeR false
  if oobR then []
  else
    let realR := min realR data.length
    if realL ≤ realR then (data.drop realL).take (realR - realL) else []

/-- The stream branch of `slice_term_t::eval_impl`: the positions it gives `seq->slice`. -/
def streamSliceBounds (leftOpen : Bool) (fakeL : Int) (rightOpen : Bool) (fakeR : Int) :
    Except SliceError (Nat × Nat) :=
  if fakeL < 0 then .error .negativeLeftIndex
  else
    let realL := if leftOpen then fakeL.toNat + 1 else fakeL.toNat
    if fakeR < -1 then .error .rightIndexBelowMinusOne
    else if fakeR = -1 then
      if rightOpen then .error .openRightIndexMinusOne else .ok (realL, 2 ^ 64 - 1)
    else .ok (realL, if rightOpen then fakeR.toNat else fakeR.toNat + 1)

/-- Where a loop of `slice_datum_stream_t::next_raw_batch` stands: the count of elements read
from the source, the batch being built, and the batches the source has yet to return. -/
structure Cursor (α : Type) where
  index : Nat
  ret : List α
  source : List (List α)

/-- `index += v.size()`, and the batch `v` cut back to end at `right` if it crosses it. -/
def trimBatch (right index : Nat) (v : List α) : List α × Nat :=
  let index := index + v.length
  if index > right then (v.take (v.length - (index - right)), right) else (v, index)

/-- The first loop of `next_raw_batch`, while `index < left`: batches below `left` are dropped,
and of the one that crosses it only its end is kept.  It says whether it returned on an empty
batch of the source. -/
def skipToLeft (left right index : Nat) (ret : List α) : List (List α) → Bool × Cursor α
  | [] => if index < left then (true, ⟨index, ret, []⟩) else (false, ⟨index, ret, []⟩)
  | v :: rest =>
    if index < left then
      if v.isEmpty then (true, ⟨index, ret, rest⟩)
      else
        let (v, index) := trimBatch right index v
        let ret := if index > left then ret ++ v.drop (v.length - (index - left)) else ret
        skipToLeft left right index ret rest
    else (false, ⟨index, ret, v :: rest⟩)

/-- The second loop of `next_raw_batch`, while `index < right`: it stops when the batcher says
to send, when a changefeed has something, or when the source is done. -/
def fillToRight (right : Nat) (shouldSend : List α → Bool) (feed : Bool) (index : Nat)
    (ret : List α) : List (List α) → Cursor α
  -- each way out leaves `ret` as it is when the source has nothing more
  | [] => ⟨index, ret, []⟩
  | v :: rest =>
    if index < right then
      if shouldSend ret then ⟨index, ret, v :: rest⟩
      else if feed && !ret.isEmpty then ⟨index, ret, v :: rest⟩
      else if v.isEmpty then ⟨index, ret, rest⟩
      else
        let (v, index) := trimBatch right index v
        fillToRight right shouldSend feed index (ret ++ v) rest
    else ⟨index, ret, v :: rest⟩

/-- `slice_datum_stream_t`: the count of source elements read, the bounds, and the batches its
source has yet to return. -/
structure SliceStream (α : Type) where
  index : Nat
  left : Nat
  right : Nat
  source : List (List α)

/-- `slice_datum_stream_t::next_raw_batch`, with the batcher's `should_send_batch` on the
elements noted so far (the batch being built) and whether the source is a changefeed. -/
def SliceStream.nextRawBatch (shouldSend : List α → Bool) (feed : Bool) (s : SliceStream α) :
    List α × SliceStream α :=
  if s.left ≥ s.right ∨ s.index ≥ s.right then ([], s)
  else
    match skipToLeft s.left s.right s.index [] s.source with
    | (true, c) => (c.ret, { s with index := c.index, source := c.source })
    | (false, c) =>
      let c := fillToRight s.right shouldSend feed c.index c.ret c.source
      (c.ret, { s with index := c.index, source := c.source })

/-- Reading a slice to its end, as `next_grouped_batch` does: raw batches until one is empty,
for at most `fuel` of them.  `shouldSend k` is the batcher of the call with `k` calls left. -/
def SliceStream.readAll (shouldSend : Nat → List α → Bool) (feed : Bool) :
    Nat → SliceStream α → List α
  | 0, _ => []
  | fuel + 1, s =>
    let (batch, s) := s.nextRawBatch (shouldSend fuel) feed
    if batch.isEmpty then [] else batch ++ readAll shouldSend feed fuel s

/-! ## What a slice is

The slice that ReQL describes: from `L` up to `R`, within the array, where a negative index
counts from the end, a left index before the start is `0`, and a right index before the start
leaves nothing. -/

/-- A possibly negative index counted from the start. -/
def canon (n : Nat) (i : Int) : Nat := if 0 ≤ i then i.toNat else ((n : Int) + i).toNat

/-- The first position of the slice. -/
def sliceStart (n : Nat) (leftOpen : Bool) (l : Int) : Nat :=
  if l < -(n : Int) then 0 else canon n l + if leftOpen then 1 else 0

/-- The position past the slice. -/
def sliceEnd (n : Nat) (rightOpen : Bool) (r : Int) : Nat :=
  canon n r + if rightOpen then 0 else 1

/-- The elements `arr[i]` for `sliceStart ≤ i < sliceEnd`, `i` within the array, or none when
the right index lies before the start. -/
def sliceSpec (arr : List α) (leftOpen : Bool) (l : Int) (rightOpen : Bool) (r : Int) : List α :=
  if r < -(arr.length : Int) then []
  else (arr.take (sliceEnd arr.length rightOpen r)).drop (sliceStart arr.length leftOpen l)

/-! ## Arrays and binaries -/

theorem canonicalize_eq (index : Int) (size : Nat) :
    canonicalize index size =
      if index < -(size : Int) then (0, true) else (canon size index, false) := by
  unfold canonicalize canon
  by_cases nonneg : index ≥ 0
  · rw [if_pos nonneg, if_neg (by omega), if_pos nonneg]
  · rw [if_neg nonneg]
    by_cases before : (-index).toNat > size
    · rw [if_pos before, if_pos (by omega)]
    · rw [if_neg before, if_neg (by omega), if_neg nonneg]

/-- The left position `canon_helper` leaves, once an index before the start is `0`. -/
theorem canonHelper_left (size : Nat) (leftOpen : Bool) (fakeL : Int) :
    (if (canonHelper size leftOpen fakeL true).1 then 0
      else (canonHelper size leftOpen fakeL true).2) =
      sliceStart size leftOpen fakeL := by
  unfold canonHelper sliceStart
  rw [canonicalize_eq]
  by_cases before : fakeL < -(size : Int)
  · simp only [if_pos before, if_true]
  · simp only [if_neg before, Bool.false_eq_true, if_false]
    cases leftOpen <;> rfl

theorem canonHelper_right_oob (size : Nat) (rightOpen : Bool) (fakeR : Int) :
    (canonHelper size rightOpen fakeR false).1 = decide (fakeR < -(size : Int)) := by
  unfold canonHelper
  rw [canonicalize_eq]
  by_cases before : fakeR < -(size : Int)
  · simp [before]
  · simp [before]

theorem canonHelper_right (size : Nat) (rightOpen : Bool) {fakeR : Int}
    (within : ¬fakeR < -(size : Int)) :
    (canonHelper size rightOpen fakeR false).2 = sliceEnd size rightOpen fakeR := by
  unfold canonHelper sliceEnd
  rw [canonicalize_eq, if_neg within]
  cases rightOpen <;> rfl

/-- The loop adds the elements it visits one at a time, and fails at the first that takes the
array over the limit. -/
theorem sliceArrayLoop_eq (limit : Nat) {out : List α} (bound : out.length ≤ limit)
    (remaining : Nat) (rest : List α) :
    sliceArrayLoop limit out remaining rest =
      if (out ++ rest.take remaining).length ≤ limit then .ok (out ++ rest.take remaining)
      else .error (.arrayOverSizeLimit limit) := by
  induction rest generalizing out remaining with
  | nil =>
    cases remaining <;> simp [sliceArrayLoop, bound]
  | cons x rest ih =>
    cases remaining with
    | zero => simp [sliceArrayLoop, bound]
    | succ remaining =>
      unfold sliceArrayLoop arrayBuilderAdd
      by_cases fits : (out ++ [x]).length ≤ limit
      · rw [if_pos fits]
        show sliceArrayLoop limit (out ++ [x]) remaining rest = _
        rw [ih fits, List.take_succ_cons, List.append_assoc, List.singleton_append]
      · rw [if_neg fits]
        have longer : ¬(out ++ (x :: rest).take (remaining + 1)).length ≤ limit := by
          simp only [List.length_append, List.length_cons, List.length_nil, List.take_succ_cons]
            at fits ⊢
          omega
        rw [if_neg longer]
        rfl

/-- `slice_array` returns the slice, or fails when the slice is over the array size limit. -/
theorem sliceArray_eq (limit : Nat) (arr : List α) (leftOpen : Bool) (l : Int) (rightOpen : Bool)
    (r : Int) :
    sliceArray limit arr leftOpen l rightOpen r =
      if (sliceSpec arr leftOpen l rightOpen r).length ≤ limit then
        .ok (sliceSpec arr leftOpen l rightOpen r)
      else .error (.arrayOverSizeLimit limit) := by
  unfold sliceArray sliceSpec
  simp only [canonHelper_left, canonHelper_right_oob, decide_eq_true_eq]
  by_cases before : r < -(arr.length : Int)
  · simp only [if_pos before, List.length_nil, Nat.zero_le, if_true]
  · have empty : ([] : List α).length ≤ limit := Nat.zero_le limit
    rw [if_neg before, if_neg before, canonHelper_right arr.length rightOpen before,
      sliceArrayLoop_eq limit empty, List.nil_append, List.drop_take]

/-- `slice_binary` returns the same slice. -/
theorem sliceBinary_eq (data : List UInt8) (leftOpen : Bool) (l : Int) (rightOpen : Bool)
    (r : Int) :
    sliceBinary data leftOpen l rightOpen r = sliceSpec data leftOpen l rightOpen r := by
  unfold sliceBinary sliceSpec
  simp only [canonHelper_left, canonHelper_right_oob, decide_eq_true_eq]
  by_cases before : r < -(data.length : Int)
  · simp only [if_pos before]
  · rw [if_neg before, if_neg before, canonHelper_right data.length rightOpen before]
    -- the bytes past the end are no part of the slice either way
    have clamped : data.take (min (sliceEnd data.length rightOpen r) data.length) =
        data.take (sliceEnd data.length rightOpen r) := by
      rw [← List.take_take, List.take_length]
    split_ifs with inside
    · rw [← List.drop_take, clamped]
    · symm
      apply List.drop_eq_nil_of_le
      rw [List.length_take]
      omega

example : sliceArray 100 [1, 2, 3, 4] true 0 true (-1) = .ok [2, 3] := by decide

/-! ## A slice of a stream

A slice stream keeps one invariant through every loop of every call: what its source has
produced so far, cut to the bounds, is what it has returned, with the batch it is building.
Each loop keeps it batch by batch (`Read.pull`), a call of `next_raw_batch` keeps it and
returns an empty batch only once it is complete (`nextRawBatch_spec`), and so reading the
stream to its end returns its slice (`readAll_slice`). -/

/-- What a slice stream has read of `all`: the source has produced `consumed` and holds the rest,
the count is capped at `right`, and `out`, everything returned with the batch being built, is
what `consumed` has between the bounds. -/
def Read (left right : Nat) (all out : List α) (index : Nat) (source : List (List α)) : Prop :=
  ∃ consumed, all = consumed ++ source.flatten ∧ index = min consumed.length right ∧
    out = (consumed.take right).drop left

section Stream

variable {left right index : Nat} {all out pre ret v : List α} {source rest : List (List α)}

theorem read_start (batches : List (List α)) (left right : Nat) :
    Read left right batches.flatten [] 0 batches :=
  ⟨[], (List.nil_append _).symm, by simp, by simp⟩

/-- Below `right`, a batch is cut to what is left before `right`. -/
theorem trimBatch_eq (below : index ≤ right) (v : List α) :
    trimBatch right index v = (v.take (right - index), min (index + v.length) right) := by
  unfold trimBatch
  dsimp only
  split_ifs with crosses
  · have kept : v.length - (index + v.length - right) = right - index := by omega
    rw [kept, Nat.min_eq_right (Nat.le_of_lt crosses)]
  · rw [List.take_of_length_le (by omega), Nat.min_eq_left (by omega)]

/-- Reading one more batch of the source below `right` returns what of it lies past `left`. -/
theorem Read.pull (read : Read left right all out index (v :: rest)) (below : index < right) :
    Read left right all (out ++ (v.take (right - index)).drop (left - index))
      (min (index + v.length) right) rest := by
  obtain ⟨consumed, whole, count, returned⟩ := read
  have length : consumed.length = index := by omega
  have before : consumed.take right = consumed := List.take_of_length_le (by omega)
  refine ⟨consumed ++ v, ?_, ?_, ?_⟩
  · rw [whole, List.flatten_cons, List.append_assoc]
  · rw [List.length_append, length]
  · rw [returned, List.take_append, before, List.drop_append, length]

/-- Once the source is done, the count reaches `right`, or the bounds cross, the stream has
returned all of its slice. -/
theorem Read.complete (read : Read left right all out index source)
    (done : source = [] ∨ right ≤ index ∨ right ≤ left) :
    out = (all.take right).drop left := by
  obtain ⟨consumed, whole, count, returned⟩ := read
  rcases done with empty | full | crossed
  · rw [returned, whole, empty, List.flatten_nil, List.append_nil]
  · have longer : right ≤ consumed.length := by omega
    rw [returned, whole, List.take_append_of_le_length longer]
  · have short : ∀ xs : List α, (xs.take right).drop left = [] := by
      intro xs
      apply List.drop_eq_nil_of_le
      rw [List.length_take]
      omega
    rw [returned, short, short]

/-- What a loop of `next_raw_batch` keeps: the invariant, with `pre` returned by earlier calls;
the source only loses batches; and the batch grows only when the source loses one. -/
structure Advanced (left right : Nat) (all pre ret : List α) (source : List (List α))
    (c : Cursor α) : Prop where
  read : Read left right all (pre ++ c.ret) c.index c.source
  suffix : c.source <:+ source
  progress : c.ret ≠ ret → c.source.length < source.length

theorem advanced_self (read : Read left right all (pre ++ ret) index source) :
    Advanced left right all pre ret source ⟨index, ret, source⟩ :=
  ⟨read, List.suffix_refl source, fun moved => absurd rfl moved⟩

/-- A loop that went on after reading batch `v` has advanced from before it. -/
theorem Advanced.cons {ret' : List α} {c : Cursor α}
    (adv : Advanced left right all pre ret' rest c) :
    Advanced left right all pre ret (v :: rest) c := by
  refine ⟨adv.read, adv.suffix.trans (List.suffix_cons v rest), ?_⟩
  intro _
  have shorter := adv.suffix.length_le
  rw [List.length_cons]
  omega

theorem skipToLeft_pull (below : index < left) (lt : left < right) (full : v ≠ []) :
    skipToLeft left right index ret (v :: rest) =
      skipToLeft left right (min (index + v.length) right)
        (ret ++ (v.take (right - index)).drop (left - index)) rest := by
  rw [skipToLeft, if_pos below, if_neg (by simpa using full), trimBatch_eq (by omega)]
  dsimp only
  congr 1
  split_ifs with crossing
  · congr 2
    rw [List.length_take]
    omega
  · rw [List.drop_eq_nil_of_le (by rw [List.length_take]; omega), List.append_nil]

theorem fillToRight_pull {shouldSend : List α → Bool} {feed : Bool} (below : index < right)
    (noSend : shouldSend ret = false) (noFeed : (feed && !ret.isEmpty) = false) (full : v ≠ []) :
    fillToRight right shouldSend feed index ret (v :: rest) =
      fillToRight right shouldSend feed (min (index + v.length) right)
        (ret ++ v.take (right - index)) rest := by
  rw [fillToRight, if_pos below, noSend, noFeed]
  simp only [Bool.false_eq_true, if_false]
  rw [if_neg (by simpa using full), trimBatch_eq below.le]

/-- The first loop keeps the invariant; it returns early only once the source is done, and
otherwise leaves the count at `left` or past it. -/
theorem skipToLeft_spec (nonempty : ∀ v ∈ source, v ≠ []) (lt : left < right)
    (read : Read left right all (pre ++ ret) index source) :
    Advanced left right all pre ret source (skipToLeft left right index ret source).2 ∧
      ((skipToLeft left right index ret source).1 = true →
        (skipToLeft left right index ret source).2.source = []) ∧
      ((skipToLeft left right index ret source).1 = false →
        left ≤ (skipToLeft left right index ret source).2.index) := by
  induction source generalizing index ret with
  | nil =>
    rw [skipToLeft]
    split_ifs with below
    · exact ⟨advanced_self read, fun _ => rfl, fun early => by simp at early⟩
    · refine ⟨advanced_self read, fun late => by simp at late, fun _ => ?_⟩
      dsimp only
      omega
  | cons v rest ih =>
    by_cases below : index < left
    · -- the batch is read, and the loop goes on from the next one
      have full := nonempty v (List.mem_cons_self ..)
      rw [skipToLeft_pull below lt full]
      have step := read.pull (by omega)
      rw [List.append_assoc] at step
      obtain ⟨adv, early, late⟩ :=
        ih (fun w member => nonempty w (List.mem_cons_of_mem v member)) step
      exact ⟨adv.cons, early, late⟩
    · rw [skipToLeft, if_neg below]
      refine ⟨advanced_self read, fun late => by simp at late, fun _ => ?_⟩
      dsimp only
      omega

/-- The second loop keeps the invariant, and it stops with an empty batch only once the source
is done or the count has reached `right`. -/
theorem fillToRight_spec (shouldSend : List α → Bool) (feed : Bool)
    (nonempty : ∀ v ∈ source, v ≠ []) (quiet : shouldSend [] = false) (above : left ≤ index)
    (read : Read left right all (pre ++ ret) index source) :
    Advanced left right all pre ret source (fillToRight right shouldSend feed index ret source) ∧
      ((fillToRight right shouldSend feed index ret source).ret = [] →
        (fillToRight right shouldSend feed index ret source).source = [] ∨
          right ≤ (fillToRight right shouldSend feed index ret source).index) := by
  induction source generalizing index ret with
  | nil =>
    rw [fillToRight]
    exact ⟨advanced_self read, fun _ => Or.inl rfl⟩
  | cons v rest ih =>
    by_cases below : index < right
    · by_cases send : shouldSend ret = true
      · -- the batcher sends what there is, which is not nothing
        rw [fillToRight, if_pos below, if_pos send]
        refine ⟨advanced_self read, fun empty => ?_⟩
        dsimp only at empty
        rw [empty, quiet] at send
        exact absurd send Bool.false_ne_true
      · by_cases waiting : (feed && !ret.isEmpty) = true
        · rw [fillToRight, if_pos below, if_neg send, if_pos waiting]
          refine ⟨advanced_self read, fun empty => ?_⟩
          dsimp only at empty
          rw [empty] at waiting
          simp at waiting
        · have full := nonempty v (List.mem_cons_self ..)
          rw [fillToRight_pull below (eq_false_of_ne_true send) (eq_false_of_ne_true waiting) full]
          have step := read.pull below
          rw [Nat.sub_eq_zero_of_le above, List.drop_zero, List.append_assoc] at step
          obtain ⟨adv, exit⟩ :=
            ih (fun w member => nonempty w (List.mem_cons_of_mem v member)) (by omega) step
          exact ⟨adv.cons, exit⟩
    · rw [fillToRight, if_neg below]
      refine ⟨advanced_self read, fun _ => Or.inr ?_⟩
      dsimp only
      omega

end Stream

/-- What one call of `next_raw_batch` does: the bounds stay, the invariant holds with the batch
returned, the source only loses batches, a batch comes only with a batch of the source, and an
empty batch comes only once the whole slice has been returned. -/
structure Stepped (all pre : List α) (s : SliceStream α) (batch : List α) (s' : SliceStream α) :
    Prop where
  left_eq : s'.left = s.left
  right_eq : s'.right = s.right
  read : Read s.left s.right all (pre ++ batch) s'.index s'.source
  suffix : s'.source <:+ s.source
  progress : batch ≠ [] → s'.source.length < s.source.length
  complete : batch = [] → pre = (all.take s.right).drop s.left

theorem nextRawBatch_spec {all pre : List α} {shouldSend : List α → Bool} (feed : Bool)
    (s : SliceStream α) (nonempty : ∀ v ∈ s.source, v ≠ []) (quiet : shouldSend [] = false)
    (read : Read s.left s.right all pre s.index s.source) :
    Stepped all pre s (s.nextRawBatch shouldSend feed).1 (s.nextRawBatch shouldSend feed).2 := by
  have start : Read s.left s.right all (pre ++ []) s.index s.source := by rwa [List.append_nil]
  unfold SliceStream.nextRawBatch
  split_ifs with guard
  · -- nothing is left between the bounds
    exact ⟨rfl, rfl, start, List.suffix_refl _, fun moved => absurd rfl moved,
      fun _ => read.complete (Or.inr (by omega))⟩
  · have skipped := skipToLeft_spec nonempty (by omega) start
    generalize skipToLeft s.left s.right s.index [] s.source = result at skipped ⊢
    obtain ⟨returned, c⟩ := result
    obtain ⟨adv, early, late⟩ := skipped
    cases returned
    · -- the second loop goes on from where the first stopped
      dsimp only at adv early late ⊢
      obtain ⟨adv', exit⟩ := fillToRight_spec shouldSend feed
        (fun v member => nonempty v (adv.suffix.subset member)) quiet (late rfl) adv.read
      refine ⟨rfl, rfl, adv'.read, adv'.suffix.trans adv.suffix, fun moved => ?_,
        fun empty => ?_⟩
      · dsimp only
        have shorter := adv'.suffix.length_le
        by_cases kept : c.ret = []
        · have fewer := adv'.progress (fun same => moved (same.trans kept))
          have before := adv.suffix.length_le
          omega
        · have fewer := adv.progress kept
          omega
      · have whole := adv'.read.complete ((exit empty).imp_right Or.inl)
        rwa [empty, List.append_nil] at whole
    · -- the source was done in the first loop
      dsimp only at adv early late ⊢
      refine ⟨rfl, rfl, adv.read, adv.suffix, adv.progress, fun empty => ?_⟩
      have whole := adv.read.complete (Or.inl (early rfl))
      rwa [empty, List.append_nil] at whole

/-- With a call for every batch of the source and one more, the stream returns the rest of its
slice. -/
theorem readAll_spec {all : List α} (shouldSend : Nat → List α → Bool)
    (quiet : ∀ k, shouldSend k [] = false) (feed : Bool) (fuel : Nat) :
    ∀ (s : SliceStream α) (pre : List α), (∀ v ∈ s.source, v ≠ []) →
      Read s.left s.right all pre s.index s.source → s.source.length < fuel →
      pre ++ s.readAll shouldSend feed fuel = (all.take s.right).drop s.left := by
  induction fuel with
  | zero => exact fun _ _ _ _ enough => absurd enough (Nat.not_lt_zero _)
  | succ fuel ih =>
    intro s pre nonempty read enough
    have step := nextRawBatch_spec feed s nonempty (quiet fuel) read
    rw [SliceStream.readAll]
    generalize s.nextRawBatch (shouldSend fuel) feed = next at step ⊢
    obtain ⟨batch, s'⟩ := next
    dsimp only at step ⊢
    by_cases empty : batch = []
    · rw [if_pos (List.isEmpty_iff.mpr empty), List.append_nil]
      exact step.complete empty
    · -- the batch is returned, and the rest comes from the calls after it
      rw [if_neg (by simpa using empty), ← List.append_assoc]
      have rest := ih s' (pre ++ batch) (fun v member => nonempty v (step.suffix.subset member))
        (by rw [step.left_eq, step.right_eq]; exact step.read)
        (by have := step.progress empty; omega)
      rwa [step.left_eq, step.right_eq] at rest

/-- A slice stream read to its end returns the elements of its source between the bounds,
whatever the batches of the source and whenever the batcher sends. -/
theorem readAll_slice (batches : List (List α)) (nonempty : ∀ v ∈ batches, v ≠ [])
    (left right : Nat) (shouldSend : Nat → List α → Bool)
    (quiet : ∀ k, shouldSend k [] = false)
    (feed : Bool) {fuel : Nat} (enough : batches.length < fuel) :
    SliceStream.readAll shouldSend feed fuel ⟨0, left, right, batches⟩ =
      (batches.flatten.take right).drop left := by
  have whole := readAll_spec shouldSend quiet feed fuel ⟨0, left, right, batches⟩ [] nonempty
    (read_start batches left right) enough
  rwa [List.nil_append] at whole

/-! ## The three slices agree -/

/-- The positions a stream slice gets, for the indices a stream accepts. -/
theorem streamSliceBounds_eq (leftOpen : Bool) {l : Int} (rightOpen : Bool) {r : Int}
    (nonneg : 0 ≤ l) (atLeast : -1 ≤ r) (notOpen : ¬(r = -1 ∧ rightOpen = true)) :
    streamSliceBounds leftOpen l rightOpen r =
      .ok (l.toNat + (if leftOpen then 1 else 0),
        if r = -1 then 2 ^ 64 - 1 else r.toNat + if rightOpen then 0 else 1) := by
  unfold streamSliceBounds
  rw [if_neg (by omega), if_neg (by omega)]
  by_cases last : r = -1
  · have closed : rightOpen = false := by simpa [last] using notOpen
    rw [if_pos last, if_pos last, closed]
    cases leftOpen <;> rfl
  · rw [if_neg last, if_neg last]
    cases leftOpen <;> cases rightOpen <;> rfl

/-- Those positions cut the same slice out of an array of `size_t` length. -/
theorem take_drop_streamSliceBounds (arr : List α) (small : arr.length < 2 ^ 64) (leftOpen : Bool)
    {l : Int} (rightOpen : Bool) {r : Int} (nonneg : 0 ≤ l) (atLeast : -1 ≤ r)
    (notOpen : ¬(r = -1 ∧ rightOpen = true)) :
    (arr.take (if r = -1 then 2 ^ 64 - 1 else r.toNat + if rightOpen then 0 else 1)).drop
        (l.toNat + if leftOpen then 1 else 0) =
      sliceSpec arr leftOpen l rightOpen r := by
  have start : sliceStart arr.length leftOpen l = l.toNat + if leftOpen then 1 else 0 := by
    unfold sliceStart canon
    rw [if_neg (by omega), if_pos nonneg]
  unfold sliceSpec
  rw [start]
  by_cases last : r = -1
  · -- `-1` closed: to the end of the array, which a stream reads as the largest `uint64_t`
    have closed : rightOpen = false := by simpa [last] using notOpen
    have whole : arr.take (2 ^ 64 - 1) = arr := List.take_of_length_le (by omega)
    rw [if_pos last, whole]
    by_cases empty : arr.length = 0
    · rw [if_pos (show r < -(arr.length : Int) by omega), List.eq_nil_of_length_eq_zero empty,
        List.drop_nil]
    · have full : sliceEnd arr.length rightOpen r = arr.length := by
        unfold sliceEnd canon
        rw [if_neg (show ¬0 ≤ r by omega), closed]
        simp only [Bool.false_eq_true, if_false]
        omega
      rw [if_neg (show ¬r < -(arr.length : Int) by omega), full, List.take_length]
  · have finish : sliceEnd arr.length rightOpen r = r.toNat + if rightOpen then 0 else 1 := by
      unfold sliceEnd canon
      rw [if_pos (show 0 ≤ r by omega)]
    rw [if_neg last, if_neg (show ¬r < -(arr.length : Int) by omega), finish]

end Ql
end RethinkDB
