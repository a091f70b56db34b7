import RethinkDB.Concurrency.FifoEnforcer
import RethinkDB.Foundations.PositionCount

namespace RethinkDB
namespace Concurrency

/-!
# The sink over a whole run

The objects that carry a source's tokens through `fifo_enforcer_sink_t` are begun once each,
`exit_read_t(sink, token)` or `exit_write_t(sink, token)`, and ended once each, at any time
after, whether they have been pulsed or not.  A run here lets the objects of all the tokens a
source handed out begin and end in any order.  `SinkInv` says where every object stands: in line
(as itself, or as the dummy it left), popped and running, or popped and ended; and it ties
`popped_state` and `finished_state` to those objects.  Every call keeps it, through every round
of `internal_pump`.

From it: none of the sink's `rassert`s fails in any run; a write is pulsed only once every object
before it has ended, and a read only once every write before it has ended, so a running write
runs alone.

Object `id` carries the `id`-th token the source handed out.  `begun` lists the objects whose
`parent` is set and `ended` those whose `ended` flag is set; the two `rassert`s on them in
`begin` and `end` are the guards of a call.
-/

open PositionCount Nat

/-- The timestamp a token carries. -/
def Token.timestamp : Token → Nat
  | .read token => token.timestamp
  | .write token => token.timestamp

/-- Whether a token is a write token. -/
def Token.isWrite : Token → Bool
  | .read _ => false
  | .write _ => true

/-- The sink and the objects of a run. -/
structure SinkRun where
  sink : FifoSink
  begun : List Nat
  ended : List Nat

/-- A new sink, with no object begun. -/
def SinkRun.init : SinkRun := ⟨FifoSink.init, [], []⟩

/-- A call of an object on the sink: `begin()`, or `end()`, which is `leave` here. -/
inductive SinkEvent where
  | begin (id : Nat)
  | leave (id : Nat)
  deriving DecidableEq, Repr

section Run

variable {α : Type}

/-- One call; `none` if a `rassert` fails, the object's own (`parent == NULL` before `begin`,
`parent && !ended` before `end`) or one of the sink's, or if there is no such token. -/
def SinkRun.step (items : List (Token × α)) (run : SinkRun) : SinkEvent → Option SinkRun
  | .begin id =>
    if id ∈ run.begun then none
    else
      match items[id]? with
      | some (.read token, _) =>
        (run.sink.beginRead id token).map fun sink => { run with sink, begun := run.begun ++ [id] }
      | some (.write token, _) =>
        (run.sink.beginWrite id token).map fun sink =>
          { run with sink, begun := run.begun ++ [id] }
      | none => none
  | .leave id =>
    if id ∈ run.begun ∧ id ∉ run.ended then
      match items[id]? with
      | some (.read token, _) =>
        (run.sink.endRead id token).map fun sink => { run with sink, ended := run.ended ++ [id] }
      | some (.write token, _) =>
        (run.sink.endWrite id token).map fun sink => { run with sink, ended := run.ended ++ [id] }
      | none => none
    else none

/-- The calls an object may make: begin once if it has a token, and end once after that. -/
def SinkRun.Allowed (items : List (Token × α)) (run : SinkRun) : SinkEvent → Prop
  | .begin id => id < items.length ∧ id ∉ run.begun
  | .leave id => id ∈ run.begun ∧ id ∉ run.ended

/-- The states of a run from a new sink, by calls that go through. -/
inductive SinkRun.Reachable (items : List (Token × α)) : SinkRun → Prop
  | init : SinkRun.Reachable items SinkRun.init
  | step {run run' : SinkRun} (event : SinkEvent) : SinkRun.Reachable items run →
      run.step items event = some run' → SinkRun.Reachable items run'

end Run

/-! ## Where the objects stand -/

/-- Whether object `id` is in one of the sink's queues, itself or as its dummy. -/
def FifoSink.InLine (sink : FifoSink) (id : Nat) : Prop :=
  id ∈ sink.readQueue.map (·.id) ∨ id ∈ sink.writeQueue.map (·.id)

instance (sink : FifoSink) (id : Nat) : Decidable (sink.InLine id) :=
  inferInstanceAs (Decidable (_ ∨ _))

/-- An object the sink has taken off its queue: pulsed, or finished as a dummy. -/
def Popped (begun : List Nat) (sink : FifoSink) (id : Nat) : Prop :=
  id ∈ begun ∧ ¬sink.InLine id

instance (begun : List Nat) (sink : FifoSink) (id : Nat) : Decidable (Popped begun sink id) :=
  inferInstanceAs (Decidable (_ ∧ _))

/-- An object whose turn is over: popped and ended. -/
def Finished (begun ended : List Nat) (sink : FifoSink) (id : Nat) : Prop :=
  Popped begun sink id ∧ id ∈ ended

instance (begun ended : List Nat) (sink : FifoSink) (id : Nat) :
    Decidable (Finished begun ended sink id) :=
  inferInstanceAs (Decidable (_ ∧ _))

section Invariant

variable {α : Type}

/-- Whether the object at `j` carries a read of timestamp `e`. -/
def IsReadAt (items : List (Token × α)) (e j : Nat) : Prop :=
  items[j]?.any (·.1.isReadAt e) = true

instance (items : List (Token × α)) (e j : Nat) : Decidable (IsReadAt items e j) :=
  inferInstanceAs (Decidable (_ = true))

theorem isReadAt_iff {items : List (Token × α)} {e j : Nat} {token : ReadToken} {value : α}
    (at_j : items[j]? = some (.read token, value)) :
    IsReadAt items e j ↔ token.timestamp = e := by
  simp [IsReadAt, at_j, Token.isReadAt]

theorem not_isReadAt_of_write {items : List (Token × α)} {e j : Nat} {token : WriteToken}
    {value : α} (at_j : items[j]? = some (.write token, value)) : ¬IsReadAt items e j := by
  simp [IsReadAt, at_j, Token.isReadAt]

theorem exists_of_isReadAt {items : List (Token × α)} {e j : Nat} (reads : IsReadAt items e j) :
    ∃ token value, items[j]? = some (.read token, value) ∧ token.timestamp = e := by
  unfold IsReadAt at reads
  cases at_j : items[j]? with
  | none => simp [at_j] at reads
  | some item =>
    obtain ⟨token, value⟩ := item
    cases token with
    | read token => exact ⟨token, value, rfl, by simpa [at_j, Token.isReadAt] using reads⟩
    | write token => simp [at_j, Token.isReadAt] at reads

theorem lt_of_isReadAt {items : List (Token × α)} {e j : Nat} (reads : IsReadAt items e j) :
    j < items.length := by
  obtain ⟨token, value, at_j, -⟩ := exists_of_isReadAt reads
  exact (List.getElem?_eq_some_iff.mp at_j).1

/-- How many reads of timestamp `e` satisfy `p`. -/
abbrev readCount (items : List (Token × α)) (e : Nat) (p : Nat → Prop) [DecidablePred p] :
    Nat :=
  count (fun j => IsReadAt items e j ∧ p j) items.length

/-! ## The epochs of the sink

What `popped_state` and `finished_state` say, over any account of which objects have been
popped and which have finished.  `e` is the timestamp of the last write that finished
(`finished_state.last_timestamp`): every write up to it has finished and no write after it,
every read before it has finished and no read after it has been popped, and
`finished_state.num_reads` counts the reads of `e` that have finished.  `popped_state` is either
at the same timestamp, counting the reads of `e` popped, or the next write has been popped, and
then every read of `e` has finished.  Each thing the sink does to an object moves the account
by one object, and each lemma below says which move keeps `Epochs` and what the sink's
`rassert`s then find. -/

variable {writes : Nat} {items : List (Token × α)}

/-- The account of the sink's two states. -/
structure Epochs (items : List (Token × α)) (popped finished : Nat → Prop)
    [DecidablePred popped] [DecidablePred finished] (poppedState finishedState : FifoState) :
    Prop where
  finished_popped : ∀ j, finished j → popped j
  finished_writes : ∀ j token value, items[j]? = some (.write token, value) →
    (finished j ↔ token.timestamp ≤ finishedState.lastTimestamp)
  popped_writes : ∀ j token value, items[j]? = some (.write token, value) →
    (popped j ↔ token.timestamp ≤ poppedState.lastTimestamp)
  finished_reads : ∀ j token value, items[j]? = some (.read token, value) →
    token.timestamp < finishedState.lastTimestamp → finished j
  unpopped_reads : ∀ j token value, items[j]? = some (.read token, value) →
    finishedState.lastTimestamp < token.timestamp → ¬popped j
  finished_count : finishedState.numReads = readCount items finishedState.lastTimestamp finished
  popped_state :
    (poppedState.lastTimestamp = finishedState.lastTimestamp ∧
      poppedState.numReads = readCount items finishedState.lastTimestamp popped) ∨
    (poppedState.lastTimestamp = finishedState.lastTimestamp + 1 ∧ poppedState.numReads = 0 ∧
      (∀ j, IsReadAt items finishedState.lastTimestamp j → finished j) ∧
      ∃ j : Nat, ∃ token : WriteToken, ∃ value : α,
        items[j]? = some (.write token, value) ∧
          token.timestamp = finishedState.lastTimestamp + 1)

/-- There is no write of timestamp `0`. -/
theorem Issued.write_pos (issued : Issued writes items) {j : Nat} {token : WriteToken}
    {value : α} (at_j : items[j]? = some (.write token, value)) : 0 < token.timestamp := by
  have present := writesAt_pos (List.mem_of_getElem? at_j)
  rw [issued.writesAt_eq] at present
  by_contra zero
  rw [if_neg fun within => zero within.1] at present
  exact Nat.lt_irrefl 0 present

/-- Two writes of one timestamp are one write. -/
theorem Issued.write_unique (issued : Issued writes items) {i j : Nat} {a b : WriteToken}
    {v w : α} (at_i : items[i]? = some (.write a, v)) (at_j : items[j]? = some (.write b, w))
    (same : a.timestamp = b.timestamp) : i = j := by
  have atMostOne : writesAt a.timestamp items ≤ 1 := by
    rw [issued.writesAt_eq]
    split_ifs <;> omega
  rw [writesAt, countP_eq_count] at atMostOne
  refine eq_of_count_le_one atMostOne (List.getElem?_eq_some_iff.mp at_i).1
    (List.getElem?_eq_some_iff.mp at_j).1 ?_ ?_
  · simp [at_i, Token.isWriteAt]
  · simp [at_j, Token.isWriteAt, same]

/-- A write counts every read of the timestamp before its own. -/
theorem Issued.precedingReads_eq (issued : Issued writes items) {j : Nat} {token : WriteToken}
    {value : α} (at_j : items[j]? = some (.write token, value)) :
    token.numPrecedingReads = count (IsReadAt items (token.timestamp - 1)) items.length := by
  rw [issued.precedingReads token value (List.mem_of_getElem? at_j), readsAt, countP_eq_count]
  rfl

/-- A read and a write are at different places. -/
theorem ne_of_read_of_write {i j : Nat} {a : ReadToken} {b : WriteToken} {v w : α}
    (at_i : items[i]? = some (.read a, v)) (at_j : items[j]? = some (.write b, w)) : i ≠ j := by
  rintro rfl
  rw [at_i] at at_j
  cases at_j

variable {popped finished popped' finished' : Nat → Prop} [DecidablePred popped]
  [DecidablePred finished] [DecidablePred popped'] [DecidablePred finished']
  {poppedState finishedState : FifoState}

/-- Accounts that agree on every object keep the epochs. -/
theorem Epochs.congr (epochs : Epochs items popped finished poppedState finishedState)
    (samePopped : ∀ i, popped' i ↔ popped i)
    (sameFinished : ∀ i, finished' i ↔ finished i) :
    Epochs items popped' finished' poppedState finishedState where
  finished_popped i done := (samePopped i).mpr (epochs.finished_popped i ((sameFinished i).mp done))
  finished_writes i token value at_i :=
    (sameFinished i).trans (epochs.finished_writes i token value at_i)
  popped_writes i token value at_i := (samePopped i).trans (epochs.popped_writes i token value at_i)
  finished_reads i token value at_i below :=
    (sameFinished i).mpr (epochs.finished_reads i token value at_i below)
  unpopped_reads i token value at_i above :=
    fun popped => epochs.unpopped_reads i token value at_i above ((samePopped i).mp popped)
  finished_count := by
    rw [epochs.finished_count]
    exact count_congr fun i _ => and_congr_right' (sameFinished i).symm
  popped_state := by
    rcases epochs.popped_state with ⟨same, counted⟩ | ⟨next, none, done, write⟩
    · left
      refine ⟨same, counted.trans (count_congr fun i _ => and_congr_right' (samePopped i).symm)⟩
    · exact .inr ⟨next, none, fun i reads => (sameFinished i).mpr (done i reads), write⟩

/-- Popping a read of the finished timestamp: `advance_by_read` on `popped_state` holds, and
the read is one more popped. -/
theorem Epochs.popRead (epochs : Epochs items popped finished poppedState finishedState)
    {j : Nat} {token : ReadToken} {value : α} (at_j : items[j]? = some (.read token, value))
    (current : token.timestamp = finishedState.lastTimestamp) (waiting : ¬popped j)
    (nowPopped : ∀ i, popped' i ↔ popped i ∨ i = j) :
    poppedState.advanceByRead token =
        some { poppedState with numReads := poppedState.numReads + 1 } ∧
      Epochs items popped' finished { poppedState with numReads := poppedState.numReads + 1 }
        finishedState := by
  have reads : IsReadAt items finishedState.lastTimestamp j := (isReadAt_iff at_j).mpr current
  rcases epochs.popped_state with ⟨same, counted⟩ | ⟨-, -, done, -⟩
  · refine ⟨if_pos (same.trans current.symm), ?_⟩
    exact {
      finished_popped := fun i done => (nowPopped i).mpr (.inl (epochs.finished_popped i done))
      finished_writes := epochs.finished_writes
      popped_writes := fun i token' value' at_i =>
        (nowPopped i).trans ((or_iff_left (ne_of_read_of_write at_j at_i).symm).trans
          (epochs.popped_writes i token' value' at_i))
      finished_reads := epochs.finished_reads
      unpopped_reads := fun i token' value' at_i above => by
        rw [nowPopped, not_or]
        refine ⟨epochs.unpopped_reads i token' value' at_i above, ?_⟩
        rintro rfl
        rw [at_j] at at_i
        cases at_i
        omega
      finished_count := epochs.finished_count
      popped_state := by
        left
        refine ⟨same, ?_⟩
        rw [counted]
        exact (count_of_flip (lt_of_isReadAt reads) (fun both => waiting both.2)
          ⟨reads, (nowPopped j).mpr (.inr rfl)⟩ fun i _ ne =>
            and_congr_right' ((nowPopped i).trans (or_iff_left ne))).symm }
  · exact absurd (epochs.finished_popped j (done j reads)) waiting

/-- Popping the next write once every read before it has finished (`internal_pump`'s test):
`advance_by_write` on `popped_state` holds, and the write is one more popped. -/
theorem Epochs.popWrite (epochs : Epochs items popped finished poppedState finishedState)
    (issued : Issued writes items) {j : Nat} {token : WriteToken} {value : α}
    (at_j : items[j]? = some (.write token, value))
    (next : token.timestamp = finishedState.lastTimestamp + 1)
    (counted : token.numPrecedingReads = finishedState.numReads) (waiting : ¬popped j)
    (nowPopped : ∀ i, popped' i ↔ popped i ∨ i = j) :
    poppedState.advanceByWrite token = some ⟨token.timestamp, 0⟩ ∧
      Epochs items popped' finished ⟨token.timestamp, 0⟩ finishedState := by
  have total : token.numPrecedingReads =
      count (IsReadAt items finishedState.lastTimestamp) items.length := by
    rw [issued.precedingReads_eq at_j, next, Nat.add_sub_cancel]
  -- every read of the finished timestamp has finished, and so has been popped
  have finishedAll := epochs.finished_count
  have poppedAll :
      readCount items finishedState.lastTimestamp popped = token.numPrecedingReads := by
    have below : readCount items finishedState.lastTimestamp finished ≤
        readCount items finishedState.lastTimestamp popped :=
      count_mono_left fun i _ both => ⟨both.1, epochs.finished_popped i both.2⟩
    have above : readCount items finishedState.lastTimestamp popped ≤
        count (IsReadAt items finishedState.lastTimestamp) items.length :=
      count_mono_left fun i _ both => both.1
    omega
  have done : ∀ i, IsReadAt items finishedState.lastTimestamp i → finished i := fun i reads =>
    of_count_and_eq (by rw [← total, counted, finishedAll]) (lt_of_isReadAt reads) reads
  rcases epochs.popped_state with ⟨same, poppedCount⟩ | ⟨later, -, -, -⟩
  · refine ⟨if_pos ⟨by rw [same, next], by rw [poppedCount, poppedAll]⟩, ?_⟩
    exact {
      finished_popped := fun i done => (nowPopped i).mpr (.inl (epochs.finished_popped i done))
      finished_writes := epochs.finished_writes
      popped_writes := fun i token' value' at_i => by
        rw [nowPopped, epochs.popped_writes i token' value' at_i, same]
        by_cases atJ : i = j
        · subst atJ
          rw [at_j] at at_i
          cases at_i
          simp [next]
        · have other : token'.timestamp ≠ token.timestamp :=
            fun eq => atJ (issued.write_unique at_i at_j eq)
          simp only [atJ, or_false]
          omega
      finished_reads := epochs.finished_reads
      unpopped_reads := fun i token' value' at_i above => by
        rw [nowPopped, not_or]
        exact ⟨epochs.unpopped_reads i token' value' at_i above, ne_of_read_of_write at_i at_j⟩
      finished_count := epochs.finished_count
      popped_state := .inr ⟨next, rfl, done, j, token, value, at_j, next⟩ }
  · have poppedJ := (epochs.popped_writes j token value at_j).mpr (by omega)
    exact absurd poppedJ waiting

/-- Finishing a popped read (`internal_finish_a_reader`): its `rassert`s and `advance_by_read`
on `finished_state` hold, and the read is one more finished. -/
theorem Epochs.finishRead (epochs : Epochs items popped finished poppedState finishedState)
    {j : Nat} {token : ReadToken} {value : α} (at_j : items[j]? = some (.read token, value))
    (poppedJ : popped j) (running : ¬finished j)
    (nowFinished : ∀ i, finished' i ↔ finished i ∨ i = j) :
    (poppedState.lastTimestamp = token.timestamp ∧
        finishedState.numReads ≤ poppedState.numReads) ∧
      finishedState.advanceByRead token =
        some { finishedState with numReads := finishedState.numReads + 1 } ∧
      Epochs items popped finished' poppedState
        { finishedState with numReads := finishedState.numReads + 1 } := by
  -- a popped read that has not finished is of the finished timestamp
  have current : token.timestamp = finishedState.lastTimestamp := by
    by_contra other
    rcases Nat.lt_or_gt_of_ne other with below | above
    · exact running (epochs.finished_reads j token value at_j below)
    · exact epochs.unpopped_reads j token value at_j above poppedJ
  have reads : IsReadAt items finishedState.lastTimestamp j := (isReadAt_iff at_j).mpr current
  rcases epochs.popped_state with ⟨same, counted⟩ | ⟨-, -, done, -⟩
  · have fewer : finishedState.numReads ≤ poppedState.numReads := by
      rw [epochs.finished_count, counted]
      exact count_mono_left fun i _ both => ⟨both.1, epochs.finished_popped i both.2⟩
    refine ⟨⟨same.trans current.symm, fewer⟩, if_pos current.symm, ?_⟩
    exact {
      finished_popped := fun i done => by
        rcases (nowFinished i).mp done with done | rfl
        · exact epochs.finished_popped i done
        · exact poppedJ
      finished_writes := fun i token' value' at_i =>
        (nowFinished i).trans ((or_iff_left (ne_of_read_of_write at_j at_i).symm).trans
          (epochs.finished_writes i token' value' at_i))
      popped_writes := epochs.popped_writes
      finished_reads := fun i token' value' at_i below =>
        (nowFinished i).mpr (.inl (epochs.finished_reads i token' value' at_i below))
      unpopped_reads := epochs.unpopped_reads
      finished_count := by
        show finishedState.numReads + 1 = _
        rw [epochs.finished_count]
        exact (count_of_flip (lt_of_isReadAt reads) (fun both => running both.2)
          ⟨reads, (nowFinished j).mpr (.inr rfl)⟩ fun i _ ne =>
            and_congr_right' ((nowFinished i).trans (or_iff_left ne))).symm
      popped_state := .inl ⟨same, counted⟩ }
  · exact absurd (done j reads) running

/-- Finishing the popped write (`internal_finish_a_writer`): its `rassert`s and
`advance_by_write` on `finished_state` hold, and the write's timestamp is the finished one. -/
theorem Epochs.finishWrite (epochs : Epochs items popped finished poppedState finishedState)
    (issued : Issued writes items) {j : Nat} {token : WriteToken} {value : α}
    (at_j : items[j]? = some (.write token, value)) (poppedJ : popped j) (running : ¬finished j)
    (nowFinished : ∀ i, finished' i ↔ finished i ∨ i = j) :
    (poppedState.lastTimestamp = token.timestamp ∧ poppedState.numReads = 0) ∧
      finishedState.advanceByWrite token = some ⟨token.timestamp, 0⟩ ∧
      Epochs items popped finished' poppedState ⟨token.timestamp, 0⟩ := by
  have after : finishedState.lastTimestamp < token.timestamp :=
    Nat.lt_of_not_le fun le => running ((epochs.finished_writes j token value at_j).mpr le)
  have upTo := (epochs.popped_writes j token value at_j).mp poppedJ
  rcases epochs.popped_state with ⟨same, -⟩ | ⟨next, none, done, -⟩
  · omega
  have isNext : token.timestamp = finishedState.lastTimestamp + 1 := by omega
  -- every read before the write has finished, as the write's count says
  have counted : finishedState.numReads = token.numPrecedingReads := by
    rw [epochs.finished_count, issued.precedingReads_eq at_j, isNext, Nat.add_sub_cancel]
    exact count_congr fun i _ => ⟨fun both => both.1, fun reads => ⟨reads, done i reads⟩⟩
  refine ⟨⟨by omega, none⟩, if_pos ⟨isNext.symm, counted⟩, ?_⟩
  have unpoppedNext : ∀ i, IsReadAt items token.timestamp i → ¬popped i := by
    intro i reads
    obtain ⟨token', value', at_i, stamp⟩ := exists_of_isReadAt reads
    exact epochs.unpopped_reads i token' value' at_i (by omega)
  exact {
    finished_popped := fun i done => by
      rcases (nowFinished i).mp done with done | rfl
      · exact epochs.finished_popped i done
      · exact poppedJ
    finished_writes := fun i token' value' at_i => by
      rw [nowFinished, epochs.finished_writes i token' value' at_i]
      by_cases atJ : i = j
      · subst atJ
        rw [at_j] at at_i
        cases at_i
        simp
      · have other : token'.timestamp ≠ token.timestamp :=
          fun eq => atJ (issued.write_unique at_i at_j eq)
        simp only [atJ, or_false]
        omega
    popped_writes := epochs.popped_writes
    finished_reads := fun i token' value' at_i below => by
      apply (nowFinished i).mpr
      left
      by_cases earlier : token'.timestamp < finishedState.lastTimestamp
      · exact epochs.finished_reads i token' value' at_i earlier
      · exact done i ((isReadAt_iff at_i).mpr (by simp only at below; omega))
    unpopped_reads := fun i token' value' at_i above =>
      epochs.unpopped_reads i token' value' at_i (by simp only at above; omega)
    finished_count := by
      show 0 = count (fun i => IsReadAt items token.timestamp i ∧ finished' i) _
      refine (count_iff_forall_not.mpr fun i _ both => ?_).symm
      rcases (nowFinished i).mp both.2 with done | rfl
      · exact unpoppedNext i both.1 (epochs.finished_popped i done)
      · exact not_isReadAt_of_write at_j both.1
    popped_state := by
      left
      refine ⟨show poppedState.lastTimestamp = token.timestamp by omega, ?_⟩
      show poppedState.numReads = count (fun i => IsReadAt items token.timestamp i ∧ popped i) _
      rw [none]
      exact (count_iff_forall_not.mpr fun i _ both => unpoppedNext i both.1 both.2).symm }

/-! ## Where the objects stand -/

/-- Where a run stands, for the tokens `items` of a source: every entry of a queue is an object
begun, with its own token, a dummy exactly when the object has ended; `pulsed` holds the popped
objects, all those that have not ended among them; and the sink's states are the account of the
objects popped and finished. -/
structure SinkInv (items : List (Token × α)) (begun ended : List Nat) (sink : FifoSink) :
    Prop where
  ended_begun : ∀ j ∈ ended, j ∈ begun
  begun_lt : ∀ j ∈ begun, j < items.length
  reads_queued : ∀ r ∈ sink.readQueue, r.id ∈ begun ∧
    (∃ value, items[r.id]? = some (.read r.token, value)) ∧ (r.dummy = true ↔ r.id ∈ ended)
  writes_queued : ∀ w ∈ sink.writeQueue, w.id ∈ begun ∧
    (∃ value, items[w.id]? = some (.write w.token, value)) ∧ (w.dummy = true ↔ w.id ∈ ended)
  reads_nodup : (sink.readQueue.map (·.id)).Nodup
  writes_nodup : (sink.writeQueue.map (·.id)).Nodup
  pulsed_popped : ∀ j ∈ sink.pulsed, Popped begun sink j
  popped_pulsed : ∀ j, Popped begun sink j → j ∉ ended → j ∈ sink.pulsed
  epochs : Epochs items (Popped begun sink) (Finished begun ended sink) sink.poppedState
    sink.finishedState

/-- The start of a run. -/
theorem sinkInv_init (issued : Issued writes items) : SinkInv items [] [] FifoSink.init where
  ended_begun _ absent := absurd absent List.not_mem_nil
  begun_lt _ absent := absurd absent List.not_mem_nil
  reads_queued _ absent := absurd absent List.not_mem_nil
  writes_queued _ absent := absurd absent List.not_mem_nil
  reads_nodup := List.nodup_nil
  writes_nodup := List.nodup_nil
  pulsed_popped _ absent := absurd absent List.not_mem_nil
  popped_pulsed _ popped := absurd popped.1 List.not_mem_nil
  epochs := {
    finished_popped := fun _ done => done.1
    finished_writes := fun _ _ _ at_j =>
      iff_of_false (fun done => List.not_mem_nil done.1.1)
        (Nat.not_le_of_lt (issued.write_pos at_j))
    popped_writes := fun _ _ _ at_j =>
      iff_of_false (fun popped => List.not_mem_nil popped.1)
        (Nat.not_le_of_lt (issued.write_pos at_j))
    finished_reads := fun _ _ _ _ below => absurd below (Nat.not_lt_zero _)
    unpopped_reads := fun _ _ _ _ _ popped => List.not_mem_nil popped.1
    finished_count := (count_iff_forall_not.mpr fun _ _ both => List.not_mem_nil both.2.1.1).symm
    popped_state :=
      .inl ⟨rfl, (count_iff_forall_not.mpr fun _ _ both => List.not_mem_nil both.2.1).symm⟩ }

/-! ## One action of the sink at a time

Each of these is one thing `internal_pump`, `internal_finish_a_*` or an object's `begin` or
`end` does: put an object in line, take the read or write of least timestamp off (pulsing it, or
finishing its dummy), finish a pulsed object, or leave a dummy in the place of one still in line.
Each keeps `SinkInv`, with the `rassert`s on the way holding. -/

/-- Taking an entry off a list whose entries have distinct ids takes its id off. -/
theorem mem_map_erase_iff {β : Type} [DecidableEq β] {f : β → Nat} {l : List β} {a : β}
    (nodup : (l.map f).Nodup) (mem : a ∈ l) (i : Nat) :
    i ∈ (l.erase a).map f ↔ i ∈ l.map f ∧ i ≠ f a := by
  have perm := (List.perm_cons_erase mem).map f
  rw [List.map_cons] at perm
  have fresh : f a ∉ (l.erase a).map f := (List.nodup_cons.mp (perm.nodup_iff.mp nodup)).1
  rw [perm.mem_iff, List.mem_cons]
  constructor
  · intro later
    exact ⟨.inr later, fun eq => fresh (eq ▸ later)⟩
  · rintro ⟨here | later, ne⟩
    · exact absurd here ne
    · exact later

/-- Marking entries leaves their ids as they were. -/
theorem map_id_mark_read (queue : List ExitRead) (j : Nat) :
    (queue.map fun read => if read.id = j then { read with dummy := true } else read).map (·.id) =
      queue.map (·.id) := by
  rw [List.map_map]
  exact List.map_congr_left fun read _ => by
    show (if read.id = j then { read with dummy := true } else read).id = read.id
    split <;> rfl

theorem map_id_mark_write (queue : List ExitWrite) (j : Nat) :
    (queue.map fun write => if write.id = j then { write with dummy := true } else write).map
      (·.id) = queue.map (·.id) := by
  rw [List.map_map]
  exact List.map_congr_left fun write _ => by
    show (if write.id = j then { write with dummy := true } else write).id = write.id
    split <;> rfl

variable {begun ended : List Nat} {sink : FifoSink}

/-- Getting in line: the object begun is in line, and what was popped stays popped. -/
theorem popped_push {sink' : FifoSink} {j : Nat} (fresh : j ∉ begun)
    (inLine : ∀ i, sink'.InLine i ↔ sink.InLine i ∨ i = j) (i : Nat) :
    Popped (begun ++ [j]) sink' i ↔ Popped begun sink i := by
  unfold Popped
  rw [List.mem_append, List.mem_singleton, inLine]
  by_cases atJ : i = j
  · subst atJ
    simp [fresh]
  · simp [atJ]

/-- Leaving the line: the object taken off is popped. -/
theorem popped_pop {sink' : FifoSink} {j : Nat} (begunJ : j ∈ begun)
    (inLine : ∀ i, sink'.InLine i ↔ sink.InLine i ∧ i ≠ j) (i : Nat) :
    Popped begun sink' i ↔ Popped begun sink i ∨ i = j := by
  unfold Popped
  rw [inLine]
  by_cases atJ : i = j
  · subst atJ
    simp [begunJ]
  · simp [atJ]

theorem SinkInv.not_write_of_read (inv : SinkInv items begun ended sink) {read : ExitRead}
    (mem : read ∈ sink.readQueue) : read.id ∉ sink.writeQueue.map (·.id) := by
  intro inWrites
  obtain ⟨write, memW, same⟩ := List.mem_map.mp inWrites
  obtain ⟨-, ⟨value, at_r⟩, -⟩ := inv.reads_queued read mem
  obtain ⟨-, ⟨value', at_w⟩, -⟩ := inv.writes_queued write memW
  exact ne_of_read_of_write at_r at_w same.symm

theorem SinkInv.not_read_of_write (inv : SinkInv items begun ended sink) {write : ExitWrite}
    (mem : write ∈ sink.writeQueue) : write.id ∉ sink.readQueue.map (·.id) := by
  intro inReads
  obtain ⟨read, memR, same⟩ := List.mem_map.mp inReads
  obtain ⟨-, ⟨value, at_r⟩, -⟩ := inv.reads_queued read memR
  obtain ⟨-, ⟨value', at_w⟩, -⟩ := inv.writes_queued write mem
  exact ne_of_read_of_write at_r at_w same

/-- An object not yet begun has no entry in line. -/
theorem SinkInv.not_inLine (inv : SinkInv items begun ended sink) {j : Nat} (fresh : j ∉ begun) :
    ¬sink.InLine j := by
  rintro (inReads | inWrites)
  · obtain ⟨read, mem, rfl⟩ := List.mem_map.mp inReads
    exact fresh (inv.reads_queued read mem).1
  · obtain ⟨write, mem, rfl⟩ := List.mem_map.mp inWrites
    exact fresh (inv.writes_queued write mem).1

/-- `internal_read_queue.push`. -/
theorem SinkInv.pushRead (inv : SinkInv items begun ended sink) {j : Nat} (fresh : j ∉ begun)
    {token : ReadToken} {value : α} (at_j : items[j]? = some (.read token, value)) :
    SinkInv items (begun ++ [j]) ended
      { sink with readQueue := sink.readQueue ++ [⟨j, token, false⟩] } := by
  have inLine : ∀ i, FifoSink.InLine
      { sink with readQueue := sink.readQueue ++ [⟨j, token, false⟩] } i ↔
        sink.InLine i ∨ i = j := by
    intro i
    simp only [FifoSink.InLine, List.map_append, List.map_cons, List.map_nil, List.mem_append,
      List.mem_singleton]
    tauto
  have popped := popped_push fresh inLine
  have notEnded : j ∉ ended := fun endedJ => fresh (inv.ended_begun j endedJ)
  have absent : j ∉ sink.readQueue.map (·.id) :=
    fun inReads => inv.not_inLine fresh (.inl inReads)
  exact {
    ended_begun := fun i endedI => List.mem_append_left _ (inv.ended_begun i endedI)
    begun_lt := fun i begunI => by
      rcases List.mem_append.mp begunI with old | new
      · exact inv.begun_lt i old
      · rw [List.mem_singleton.mp new]
        exact (List.getElem?_eq_some_iff.mp at_j).1
    reads_queued := fun r mem => by
      rcases List.mem_append.mp mem with old | new
      · obtain ⟨begunR, tokenR, dummyR⟩ := inv.reads_queued r old
        exact ⟨List.mem_append_left _ begunR, tokenR, dummyR⟩
      · rw [List.mem_singleton.mp new]
        exact ⟨List.mem_append_right _ (List.mem_singleton_self j), ⟨value, at_j⟩,
          iff_of_false Bool.false_ne_true notEnded⟩
    writes_queued := fun w mem => by
      obtain ⟨begunW, tokenW, dummyW⟩ := inv.writes_queued w mem
      exact ⟨List.mem_append_left _ begunW, tokenW, dummyW⟩
    reads_nodup := by
      show ((sink.readQueue ++ [ExitRead.mk j token false]).map (·.id)).Nodup
      rw [List.map_append, List.map_singleton, ← List.concat_eq_append]
      exact List.Nodup.concat absent inv.reads_nodup
    writes_nodup := inv.writes_nodup
    pulsed_popped := fun i pulsedI => (popped i).mpr (inv.pulsed_popped i pulsedI)
    popped_pulsed := fun i poppedI notEnded => inv.popped_pulsed i ((popped i).mp poppedI) notEnded
    epochs := inv.epochs.congr popped fun i => and_congr_left' (popped i) }

/-- `internal_write_queue.push`. -/
theorem SinkInv.pushWrite (inv : SinkInv items begun ended sink) {j : Nat} (fresh : j ∉ begun)
    {token : WriteToken} {value : α} (at_j : items[j]? = some (.write token, value)) :
    SinkInv items (begun ++ [j]) ended
      { sink with writeQueue := sink.writeQueue ++ [⟨j, token, false⟩] } := by
  have inLine : ∀ i, FifoSink.InLine
      { sink with writeQueue := sink.writeQueue ++ [⟨j, token, false⟩] } i ↔
        sink.InLine i ∨ i = j := by
    intro i
    simp only [FifoSink.InLine, List.map_append, List.map_cons, List.map_nil, List.mem_append,
      List.mem_singleton]
    tauto
  have popped := popped_push fresh inLine
  have notEnded : j ∉ ended := fun endedJ => fresh (inv.ended_begun j endedJ)
  have absent : j ∉ sink.writeQueue.map (·.id) :=
    fun inWrites => inv.not_inLine fresh (.inr inWrites)
  exact {
    ended_begun := fun i endedI => List.mem_append_left _ (inv.ended_begun i endedI)
    begun_lt := fun i begunI => by
      rcases List.mem_append.mp begunI with old | new
      · exact inv.begun_lt i old
      · rw [List.mem_singleton.mp new]
        exact (List.getElem?_eq_some_iff.mp at_j).1
    reads_queued := fun r mem => by
      obtain ⟨begunR, tokenR, dummyR⟩ := inv.reads_queued r mem
      exact ⟨List.mem_append_left _ begunR, tokenR, dummyR⟩
    writes_queued := fun w mem => by
      rcases List.mem_append.mp mem with old | new
      · obtain ⟨begunW, tokenW, dummyW⟩ := inv.writes_queued w old
        exact ⟨List.mem_append_left _ begunW, tokenW, dummyW⟩
      · rw [List.mem_singleton.mp new]
        exact ⟨List.mem_append_right _ (List.mem_singleton_self j), ⟨value, at_j⟩,
          iff_of_false Bool.false_ne_true notEnded⟩
    reads_nodup := inv.reads_nodup
    writes_nodup := by
      show ((sink.writeQueue ++ [ExitWrite.mk j token false]).map (·.id)).Nodup
      rw [List.map_append, List.map_singleton, ← List.concat_eq_append]
      exact List.Nodup.concat absent inv.writes_nodup
    pulsed_popped := fun i pulsedI => (popped i).mpr (inv.pulsed_popped i pulsedI)
    popped_pulsed := fun i poppedI notEnded => inv.popped_pulsed i ((popped i).mp poppedI) notEnded
    epochs := inv.epochs.congr popped fun i => and_congr_left' (popped i) }

/-- The queues once a read in line is taken off. -/
theorem SinkInv.inLine_eraseRead (inv : SinkInv items begun ended sink) {read : ExitRead}
    (mem : read ∈ sink.readQueue) (i : Nat) :
    FifoSink.InLine { sink with readQueue := sink.readQueue.erase read } i ↔
      sink.InLine i ∧ i ≠ read.id := by
  have notWrite := inv.not_write_of_read mem
  simp only [FifoSink.InLine]
  rw [mem_map_erase_iff inv.reads_nodup mem]
  constructor
  · rintro (⟨inReads, ne⟩ | inWrites)
    · exact ⟨.inl inReads, ne⟩
    · exact ⟨.inr inWrites, fun eq => notWrite (eq ▸ inWrites)⟩
  · rintro ⟨inReads | inWrites, ne⟩
    · exact .inl ⟨inReads, ne⟩
    · exact .inr inWrites

/-- The queues once a write in line is taken off. -/
theorem SinkInv.inLine_eraseWrite (inv : SinkInv items begun ended sink) {write : ExitWrite}
    (mem : write ∈ sink.writeQueue) (i : Nat) :
    FifoSink.InLine { sink with writeQueue := sink.writeQueue.erase write } i ↔
      sink.InLine i ∧ i ≠ write.id := by
  have notRead := inv.not_read_of_write mem
  simp only [FifoSink.InLine]
  rw [mem_map_erase_iff inv.writes_nodup mem]
  constructor
  · rintro (inReads | ⟨inWrites, ne⟩)
    · exact ⟨.inl inReads, fun eq => notRead (eq ▸ inReads)⟩
    · exact ⟨.inr inWrites, ne⟩
  · rintro ⟨inReads | inWrites, ne⟩
    · exact .inl inReads
    · exact .inr ⟨inWrites, ne⟩

/-- A read taken off the line, pulsed (`on_reached_head_of_queue` of an `exit_read_t`) or, as a
dummy, finished at once: `advance_by_read` on `popped_state` holds, and so do the `rassert`s of
`internal_finish_a_reader` for a dummy. -/
theorem SinkInv.popRead (inv : SinkInv items begun ended sink) {read : ExitRead}
    (mem : read ∈ sink.readQueue)
    (current : read.token.timestamp = sink.finishedState.lastTimestamp) :
    sink.poppedState.advanceByRead read.token =
        some { sink.poppedState with numReads := sink.poppedState.numReads + 1 } ∧
      (read.dummy = false → SinkInv items begun ended
        { sink with
          readQueue := sink.readQueue.erase read
          poppedState := { sink.poppedState with numReads := sink.poppedState.numReads + 1 }
          pulsed := sink.pulsed ++ [read.id] }) ∧
      (read.dummy = true → ∃ sink', FifoSink.finishAReader
        { sink with
          readQueue := sink.readQueue.erase read
          poppedState := { sink.poppedState with numReads := sink.poppedState.numReads + 1 } }
          read.token = some sink' ∧ SinkInv items begun ended sink') := by
  obtain ⟨begunR, ⟨value, at_r⟩, dummyR⟩ := inv.reads_queued read mem
  have popped := popped_pop begunR (inv.inLine_eraseRead mem)
  have waiting : ¬Popped begun sink read.id :=
    fun poppedR => poppedR.2 (.inl (List.mem_map_of_mem mem))
  obtain ⟨advance, epochs⟩ := inv.epochs.popRead at_r current waiting popped
  refine ⟨advance, fun pulse => ?_, fun dummy => ?_⟩
  · have notEnded : read.id ∉ ended :=
      fun endedR => Bool.false_ne_true (pulse ▸ dummyR.mpr endedR)
    exact {
      ended_begun := inv.ended_begun
      begun_lt := inv.begun_lt
      reads_queued := fun r memR => inv.reads_queued r (List.mem_of_mem_erase memR)
      writes_queued := inv.writes_queued
      reads_nodup := inv.reads_nodup.sublist (List.erase_sublist.map _)
      writes_nodup := inv.writes_nodup
      pulsed_popped := fun i pulsedI => by
        apply (popped i).mpr
        rcases List.mem_append.mp pulsedI with old | new
        · exact .inl (inv.pulsed_popped i old)
        · exact .inr (List.mem_singleton.mp new)
      popped_pulsed := fun i poppedI notEndedI => by
        rcases (popped i).mp poppedI with old | rfl
        · exact List.mem_append_left _ (inv.popped_pulsed i old notEndedI)
        · exact List.mem_append_right _ (List.mem_singleton_self _)
      epochs := epochs.congr (fun _ => Iff.rfl) fun i => by
        show Popped begun { sink with readQueue := sink.readQueue.erase read } i ∧ i ∈ ended ↔
          Popped begun sink i ∧ i ∈ ended
        rw [popped]
        by_cases atR : i = read.id
        · subst atR
          simp [notEnded]
        · simp [atR] }
  · have endedR : read.id ∈ ended := dummyR.mp dummy
    have nowFinished : ∀ i,
        Finished begun ended { sink with readQueue := sink.readQueue.erase read } i ↔
          Finished begun ended sink i ∨ i = read.id := by
      intro i
      show Popped begun { sink with readQueue := sink.readQueue.erase read } i ∧ i ∈ ended ↔
        (Popped begun sink i ∧ i ∈ ended) ∨ i = read.id
      rw [popped]
      by_cases atR : i = read.id
      · subst atR
        simp [endedR]
      · simp [atR]
    obtain ⟨⟨poppedAt, fewer⟩, finishedAdvance, finishedEpochs⟩ :=
      epochs.finishRead at_r ((popped read.id).mpr (.inr rfl)) (fun done => waiting done.1)
        nowFinished
    refine ⟨_, by rw [FifoSink.finishAReader, if_pos ⟨poppedAt, fewer⟩, finishedAdvance]; rfl,
      ?_⟩
    exact {
      ended_begun := inv.ended_begun
      begun_lt := inv.begun_lt
      reads_queued := fun r memR => inv.reads_queued r (List.mem_of_mem_erase memR)
      writes_queued := inv.writes_queued
      reads_nodup := inv.reads_nodup.sublist (List.erase_sublist.map _)
      writes_nodup := inv.writes_nodup
      pulsed_popped := fun i pulsedI => (popped i).mpr (.inl (inv.pulsed_popped i pulsedI))
      popped_pulsed := fun i poppedI notEndedI => by
        rcases (popped i).mp poppedI with old | rfl
        · exact inv.popped_pulsed i old notEndedI
        · exact absurd endedR notEndedI
      epochs := finishedEpochs }

/-- The next write taken off the line once every read before it has finished (`internal_pump`'s
test), pulsed or, as a dummy, finished at once: `advance_by_write` on `popped_state` holds, and
so do the `rassert`s of `internal_finish_a_writer` for a dummy. -/
theorem SinkInv.popWrite (inv : SinkInv items begun ended sink) (issued : Issued writes items)
    {write : ExitWrite} (mem : write ∈ sink.writeQueue)
    (next : write.token.timestamp = sink.finishedState.lastTimestamp + 1)
    (counted : write.token.numPrecedingReads = sink.finishedState.numReads) :
    sink.poppedState.advanceByWrite write.token = some ⟨write.token.timestamp, 0⟩ ∧
      (write.dummy = false → SinkInv items begun ended
        { sink with
          writeQueue := sink.writeQueue.erase write
          poppedState := ⟨write.token.timestamp, 0⟩
          pulsed := sink.pulsed ++ [write.id] }) ∧
      (write.dummy = true → ∃ sink', FifoSink.finishAWriter
        { sink with
          writeQueue := sink.writeQueue.erase write
          poppedState := ⟨write.token.timestamp, 0⟩ }
          write.token = some sink' ∧ SinkInv items begun ended sink') := by
  obtain ⟨begunW, ⟨value, at_w⟩, dummyW⟩ := inv.writes_queued write mem
  have popped := popped_pop begunW (inv.inLine_eraseWrite mem)
  have waiting : ¬Popped begun sink write.id :=
    fun poppedW => poppedW.2 (.inr (List.mem_map_of_mem mem))
  obtain ⟨advance, epochs⟩ := inv.epochs.popWrite issued at_w next counted waiting popped
  refine ⟨advance, fun pulse => ?_, fun dummy => ?_⟩
  · have notEnded : write.id ∉ ended :=
      fun endedW => Bool.false_ne_true (pulse ▸ dummyW.mpr endedW)
    exact {
      ended_begun := inv.ended_begun
      begun_lt := inv.begun_lt
      reads_queued := inv.reads_queued
      writes_queued := fun w memW => inv.writes_queued w (List.mem_of_mem_erase memW)
      reads_nodup := inv.reads_nodup
      writes_nodup := inv.writes_nodup.sublist (List.erase_sublist.map _)
      pulsed_popped := fun i pulsedI => by
        apply (popped i).mpr
        rcases List.mem_append.mp pulsedI with old | new
        · exact .inl (inv.pulsed_popped i old)
        · exact .inr (List.mem_singleton.mp new)
      popped_pulsed := fun i poppedI notEndedI => by
        rcases (popped i).mp poppedI with old | rfl
        · exact List.mem_append_left _ (inv.popped_pulsed i old notEndedI)
        · exact List.mem_append_right _ (List.mem_singleton_self _)
      epochs := epochs.congr (fun _ => Iff.rfl) fun i => by
        show Popped begun { sink with writeQueue := sink.writeQueue.erase write } i ∧
          i ∈ ended ↔ Popped begun sink i ∧ i ∈ ended
        rw [popped]
        by_cases atW : i = write.id
        · subst atW
          simp [notEnded]
        · simp [atW] }
  · have endedW : write.id ∈ ended := dummyW.mp dummy
    have nowFinished : ∀ i,
        Finished begun ended { sink with writeQueue := sink.writeQueue.erase write } i ↔
          Finished begun ended sink i ∨ i = write.id := by
      intro i
      show Popped begun { sink with writeQueue := sink.writeQueue.erase write } i ∧
        i ∈ ended ↔ (Popped begun sink i ∧ i ∈ ended) ∨ i = write.id
      rw [popped]
      by_cases atW : i = write.id
      · subst atW
        simp [endedW]
      · simp [atW]
    obtain ⟨poppedAt, finishedAdvance, finishedEpochs⟩ :=
      epochs.finishWrite issued at_w ((popped write.id).mpr (.inr rfl))
        (fun done => waiting done.1) nowFinished
    refine ⟨_, by rw [FifoSink.finishAWriter, if_pos poppedAt, finishedAdvance]; rfl, ?_⟩
    exact {
      ended_begun := inv.ended_begun
      begun_lt := inv.begun_lt
      reads_queued := inv.reads_queued
      writes_queued := fun w memW => inv.writes_queued w (List.mem_of_mem_erase memW)
      reads_nodup := inv.reads_nodup
      writes_nodup := inv.writes_nodup.sublist (List.erase_sublist.map _)
      pulsed_popped := fun i pulsedI => (popped i).mpr (.inl (inv.pulsed_popped i pulsedI))
      popped_pulsed := fun i poppedI notEndedI => by
        rcases (popped i).mp poppedI with old | rfl
        · exact inv.popped_pulsed i old notEndedI
        · exact absurd endedW notEndedI
      epochs := finishedEpochs }

/-- `end()` of a pulsed read: `internal_finish_a_reader`, its `rassert`s holding. -/
theorem SinkInv.finishReader (inv : SinkInv items begun ended sink) {j : Nat}
    (pulsed : j ∈ sink.pulsed) (notEnded : j ∉ ended) {token : ReadToken} {value : α}
    (at_j : items[j]? = some (.read token, value)) :
    ∃ sink', sink.finishAReader token = some sink' ∧
      SinkInv items begun (ended ++ [j]) sink' := by
  have poppedJ := inv.pulsed_popped j pulsed
  have nowFinished : ∀ i, Finished begun (ended ++ [j]) sink i ↔
      Finished begun ended sink i ∨ i = j := by
    intro i
    unfold Finished
    rw [List.mem_append, List.mem_singleton]
    by_cases atJ : i = j
    · subst atJ
      simp [poppedJ]
    · simp [atJ]
  obtain ⟨poppedAt, finishedAdvance, finishedEpochs⟩ :=
    inv.epochs.finishRead at_j poppedJ (fun done => notEnded done.2) nowFinished
  refine ⟨_, by rw [FifoSink.finishAReader, if_pos poppedAt, finishedAdvance]; rfl, ?_⟩
  -- the object ended is off the line, so no entry in line changes its `dummy`
  have offLine : ∀ i, sink.InLine i → i ≠ j := fun i inLine eq => poppedJ.2 (eq ▸ inLine)
  exact {
    ended_begun := fun i endedI => by
      rcases List.mem_append.mp endedI with old | new
      · exact inv.ended_begun i old
      · exact List.mem_singleton.mp new ▸ poppedJ.1
    begun_lt := inv.begun_lt
    reads_queued := fun r memR => by
      obtain ⟨begunR, tokenR, dummyR⟩ := inv.reads_queued r memR
      have other := offLine r.id (.inl (List.mem_map_of_mem memR))
      exact ⟨begunR, tokenR, by simp [dummyR, other]⟩
    writes_queued := fun w memW => by
      obtain ⟨begunW, tokenW, dummyW⟩ := inv.writes_queued w memW
      have other := offLine w.id (.inr (List.mem_map_of_mem memW))
      exact ⟨begunW, tokenW, by simp [dummyW, other]⟩
    reads_nodup := inv.reads_nodup
    writes_nodup := inv.writes_nodup
    pulsed_popped := inv.pulsed_popped
    popped_pulsed := fun i poppedI notEndedI =>
      inv.popped_pulsed i poppedI fun endedI => notEndedI (List.mem_append_left _ endedI)
    epochs := finishedEpochs }

/-- `end()` of a pulsed write: `internal_finish_a_writer`, its `rassert`s holding. -/
theorem SinkInv.finishWriter (inv : SinkInv items begun ended sink) (issued : Issued writes items)
    {j : Nat} (pulsed : j ∈ sink.pulsed) (notEnded : j ∉ ended) {token : WriteToken}
    {value : α}
    (at_j : items[j]? = some (.write token, value)) :
    ∃ sink', sink.finishAWriter token = some sink' ∧
      SinkInv items begun (ended ++ [j]) sink' := by
  have poppedJ := inv.pulsed_popped j pulsed
  have nowFinished : ∀ i, Finished begun (ended ++ [j]) sink i ↔
      Finished begun ended sink i ∨ i = j := by
    intro i
    unfold Finished
    rw [List.mem_append, List.mem_singleton]
    by_cases atJ : i = j
    · subst atJ
      simp [poppedJ]
    · simp [atJ]
  obtain ⟨poppedAt, finishedAdvance, finishedEpochs⟩ :=
    inv.epochs.finishWrite issued at_j poppedJ (fun done => notEnded done.2) nowFinished
  refine ⟨_, by rw [FifoSink.finishAWriter, if_pos poppedAt, finishedAdvance]; rfl, ?_⟩
  have offLine : ∀ i, sink.InLine i → i ≠ j := fun i inLine eq => poppedJ.2 (eq ▸ inLine)
  exact {
    ended_begun := fun i endedI => by
      rcases List.mem_append.mp endedI with old | new
      · exact inv.ended_begun i old
      · exact List.mem_singleton.mp new ▸ poppedJ.1
    begun_lt := inv.begun_lt
    reads_queued := fun r memR => by
      obtain ⟨begunR, tokenR, dummyR⟩ := inv.reads_queued r memR
      have other := offLine r.id (.inl (List.mem_map_of_mem memR))
      exact ⟨begunR, tokenR, by simp [dummyR, other]⟩
    writes_queued := fun w memW => by
      obtain ⟨begunW, tokenW, dummyW⟩ := inv.writes_queued w memW
      have other := offLine w.id (.inr (List.mem_map_of_mem memW))
      exact ⟨begunW, tokenW, by simp [dummyW, other]⟩
    reads_nodup := inv.reads_nodup
    writes_nodup := inv.writes_nodup
    pulsed_popped := inv.pulsed_popped
    popped_pulsed := fun i poppedI notEndedI =>
      inv.popped_pulsed i poppedI fun endedI => notEndedI (List.mem_append_left _ endedI)
    epochs := finishedEpochs }

/-- `end()` of a read still in line: `swap_in_place` of a dummy for it. -/
theorem SinkInv.markRead (inv : SinkInv items begun ended sink) {j : Nat} (begunJ : j ∈ begun)
    (notEnded : j ∉ ended) (notPulsed : j ∉ sink.pulsed) {token : ReadToken} {value : α}
    (at_j : items[j]? = some (.read token, value)) :
    SinkInv items begun (ended ++ [j])
      { sink with readQueue := sink.readQueue.map fun read =>
          if read.id = j then { read with dummy := true } else read } := by
  have waiting : ¬Popped begun sink j :=
    fun poppedJ => notPulsed (inv.popped_pulsed j poppedJ notEnded)
  have popped : ∀ i, Popped begun { sink with readQueue := sink.readQueue.map fun read =>
      if read.id = j then { read with dummy := true } else read } i ↔ Popped begun sink i := by
    intro i
    simp only [Popped, FifoSink.InLine, map_id_mark_read]
  have finished : ∀ i, Finished begun (ended ++ [j])
      { sink with readQueue := sink.readQueue.map fun read =>
          if read.id = j then { read with dummy := true } else read } i ↔
        Finished begun ended sink i := by
    intro i
    unfold Finished
    rw [popped, List.mem_append, List.mem_singleton]
    by_cases atJ : i = j
    · subst atJ
      simp [waiting]
    · simp [atJ]
  exact {
    ended_begun := fun i endedI => by
      rcases List.mem_append.mp endedI with old | new
      · exact inv.ended_begun i old
      · exact List.mem_singleton.mp new ▸ begunJ
    begun_lt := inv.begun_lt
    reads_queued := fun r memR => by
      obtain ⟨r0, mem0, rfl⟩ := List.mem_map.mp memR
      obtain ⟨begun0, token0, dummy0⟩ := inv.reads_queued r0 mem0
      by_cases atJ : r0.id = j
      · rw [if_pos atJ]
        exact ⟨begun0, token0, by simp [atJ]⟩
      · rw [if_neg atJ]
        exact ⟨begun0, token0, by simp [dummy0, atJ]⟩
    writes_queued := fun w memW => by
      obtain ⟨begunW, ⟨valueW, at_w⟩, dummyW⟩ := inv.writes_queued w memW
      have other : w.id ≠ j := fun eq => ne_of_read_of_write at_j (eq ▸ at_w) rfl
      exact ⟨begunW, ⟨valueW, at_w⟩, by simp [dummyW, other]⟩
    reads_nodup := by
      show ((sink.readQueue.map fun read =>
        if read.id = j then { read with dummy := true } else read).map (·.id)).Nodup
      rw [map_id_mark_read]
      exact inv.reads_nodup
    writes_nodup := inv.writes_nodup
    pulsed_popped := fun i pulsedI => (popped i).mpr (inv.pulsed_popped i pulsedI)
    popped_pulsed := fun i poppedI notEndedI => inv.popped_pulsed i ((popped i).mp poppedI)
      fun endedI => notEndedI (List.mem_append_left _ endedI)
    epochs := inv.epochs.congr popped finished }

/-- `end()` of a write still in line: `swap_in_place` of a dummy for it. -/
theorem SinkInv.markWrite (inv : SinkInv items begun ended sink) {j : Nat} (begunJ : j ∈ begun)
    (notEnded : j ∉ ended) (notPulsed : j ∉ sink.pulsed) {token : WriteToken} {value : α}
    (at_j : items[j]? = some (.write token, value)) :
    SinkInv items begun (ended ++ [j])
      { sink with writeQueue := sink.writeQueue.map fun write =>
          if write.id = j then { write with dummy := true } else write } := by
  have waiting : ¬Popped begun sink j :=
    fun poppedJ => notPulsed (inv.popped_pulsed j poppedJ notEnded)
  have popped : ∀ i, Popped begun { sink with writeQueue := sink.writeQueue.map fun write =>
      if write.id = j then { write with dummy := true } else write } i ↔ Popped begun sink i := by
    intro i
    simp only [Popped, FifoSink.InLine, map_id_mark_write]
  have finished : ∀ i, Finished begun (ended ++ [j])
      { sink with writeQueue := sink.writeQueue.map fun write =>
          if write.id = j then { write with dummy := true } else write } i ↔
        Finished begun ended sink i := by
    intro i
    unfold Finished
    rw [popped, List.mem_append, List.mem_singleton]
    by_cases atJ : i = j
    · subst atJ
      simp [waiting]
    · simp [atJ]
  exact {
    ended_begun := fun i endedI => by
      rcases List.mem_append.mp endedI with old | new
      · exact inv.ended_begun i old
      · exact List.mem_singleton.mp new ▸ begunJ
    begun_lt := inv.begun_lt
    reads_queued := fun r memR => by
      obtain ⟨begunR, ⟨valueR, at_r⟩, dummyR⟩ := inv.reads_queued r memR
      have other : r.id ≠ j := fun eq => ne_of_read_of_write (eq ▸ at_r) at_j rfl
      exact ⟨begunR, ⟨valueR, at_r⟩, by simp [dummyR, other]⟩
    writes_queued := fun w memW => by
      obtain ⟨w0, mem0, rfl⟩ := List.mem_map.mp memW
      obtain ⟨begun0, token0, dummy0⟩ := inv.writes_queued w0 mem0
      by_cases atJ : w0.id = j
      · rw [if_pos atJ]
        exact ⟨begun0, token0, by simp [atJ]⟩
      · rw [if_neg atJ]
        exact ⟨begun0, token0, by simp [dummy0, atJ]⟩
    reads_nodup := inv.reads_nodup
    writes_nodup := by
      show ((sink.writeQueue.map fun write =>
        if write.id = j then { write with dummy := true } else write).map (·.id)).Nodup
      rw [map_id_mark_write]
      exact inv.writes_nodup
    pulsed_popped := fun i pulsedI => (popped i).mpr (inv.pulsed_popped i pulsedI)
    popped_pulsed := fun i poppedI notEndedI => inv.popped_pulsed i ((popped i).mp poppedI)
      fun endedI => notEndedI (List.mem_append_left _ endedI)
    epochs := inv.epochs.congr popped finished }

/-! ## The pump

Each loop of `internal_pump` keeps `SinkInv` whatever fuel it has.  With the fuel
`internal_pump` gives it, it also stops only where nothing in line can go (`Stable`): the inner
loop takes off every read of the finished timestamp, and a round is repeated only after a dummy
has finished, which took an object off the line. -/

/-- Nothing in line can go: no read of the finished timestamp, and no write that is the next one
with every read before it finished. -/
def FifoSink.Stable (sink : FifoSink) : Prop :=
  (∀ read ∈ sink.readQueue, read.token.timestamp ≠ sink.finishedState.lastTimestamp) ∧
  ∀ write ∈ sink.writeQueue, ¬(write.token.timestamp = sink.finishedState.lastTimestamp + 1 ∧
    write.token.numPrecedingReads = sink.finishedState.numReads)

/-- A read in line is of the finished timestamp or later. -/
theorem SinkInv.le_of_read_queued (inv : SinkInv items begun ended sink) {read : ExitRead}
    (mem : read ∈ sink.readQueue) :
    sink.finishedState.lastTimestamp ≤ read.token.timestamp := by
  obtain ⟨-, ⟨value, at_r⟩, -⟩ := inv.reads_queued read mem
  by_contra below
  have done := inv.epochs.finished_reads read.id read.token value at_r (Nat.lt_of_not_le below)
  exact done.1.2 (.inl (List.mem_map_of_mem mem))

/-- A write in line is of a later timestamp than the finished one. -/
theorem SinkInv.lt_of_write_queued (inv : SinkInv items begun ended sink) {write : ExitWrite}
    (mem : write ∈ sink.writeQueue) :
    sink.finishedState.lastTimestamp < write.token.timestamp := by
  obtain ⟨-, ⟨value, at_w⟩, -⟩ := inv.writes_queued write mem
  by_contra notLater
  have done := (inv.epochs.finished_writes write.id write.token value at_w).mpr
    (Nat.le_of_not_lt notLater)
  exact done.1.2 (.inr (List.mem_map_of_mem mem))

/-- Two writes in line of one timestamp are one entry. -/
theorem SinkInv.eq_of_write_queued (inv : SinkInv items begun ended sink)
    (issued : Issued writes items) {write write' : ExitWrite} (mem : write ∈ sink.writeQueue)
    (mem' : write' ∈ sink.writeQueue) (same : write.token.timestamp = write'.token.timestamp) :
    write = write' := by
  obtain ⟨-, ⟨value, at_w⟩, -⟩ := inv.writes_queued write mem
  obtain ⟨-, ⟨value', at_w'⟩, -⟩ := inv.writes_queued write' mem'
  exact List.inj_on_of_nodup_map inv.writes_nodup mem mem' (issued.write_unique at_w at_w' same)

/-- What `internal_finish_a_reader` changes: `finished_state` only. -/
theorem FifoSink.finishAReader_eq {token : ReadToken} {sink' : FifoSink}
    (finished : sink.finishAReader token = some sink') :
    sink' = { sink with finishedState := sink'.finishedState } := by
  unfold FifoSink.finishAReader at finished
  split_ifs at finished
  obtain ⟨state, -, rfl⟩ := Option.map_eq_some_iff.mp finished
  rfl

/-- What `internal_finish_a_writer` changes: `finished_state` only. -/
theorem FifoSink.finishAWriter_eq {token : WriteToken} {sink' : FifoSink}
    (finished : sink.finishAWriter token = some sink') :
    sink' = { sink with finishedState := sink'.finishedState } := by
  unfold FifoSink.finishAWriter at finished
  split_ifs at finished
  obtain ⟨state, -, rfl⟩ := Option.map_eq_some_iff.mp finished
  rfl

/-- The `while` loop of `internal_pump` keeps `SinkInv`, its `rassert`s holding, whatever fuel
it has. -/
theorem SinkInv.pumpReads (inv : SinkInv items begun ended sink) (fuel : Nat) (keepGoing : Bool) :
    ∃ sink' keepGoing', sink.pumpReads fuel keepGoing = some (sink', keepGoing') ∧
      SinkInv items begun ended sink' := by
  induction fuel generalizing sink keepGoing with
  | zero => exact ⟨sink, keepGoing, rfl, inv⟩
  | succ fuel ih =>
    rw [FifoSink.pumpReads]
    cases least : sink.readQueue.argmin (·.token.timestamp) with
    | none => exact ⟨sink, keepGoing, rfl, inv⟩
    | some read =>
      by_cases current : read.token.timestamp = sink.finishedState.lastTimestamp
      · obtain ⟨advance, pulse, finish⟩ := inv.popRead (List.argmin_mem least) current
        simp only [if_pos current, advance, Option.bind_eq_bind, Option.bind_some]
        cases isDummy : read.dummy with
        | false => exact ih (pulse isDummy) _
        | true =>
          obtain ⟨sink', finished, inv'⟩ := finish isDummy
          simp only [if_true, finished, Option.bind_some]
          exact ih inv' _
      · simp only [if_neg current]
        exact ⟨sink, keepGoing, rfl, inv⟩

/-- With fuel for every read in line, the `while` loop leaves no read of the finished timestamp
in line.  It touches no write, and it sets `pump_should_keep_going` only after finishing a dummy,
which took a read off; otherwise `finished_state` is as it was. -/
theorem SinkInv.pumpReads_drains (inv : SinkInv items begun ended sink) {fuel : Nat}
    (enough : sink.readQueue.length ≤ fuel) {keepGoing keepGoing' : Bool} {sink' : FifoSink}
    (pumped : sink.pumpReads fuel keepGoing = some (sink', keepGoing')) :
    (∀ read ∈ sink'.readQueue, read.token.timestamp ≠ sink'.finishedState.lastTimestamp) ∧
      sink'.writeQueue = sink.writeQueue ∧ sink'.readQueue.length ≤ sink.readQueue.length ∧
      (keepGoing = true → keepGoing' = true) ∧
      (keepGoing' = true →
        keepGoing = true ∨ sink'.readQueue.length < sink.readQueue.length) ∧
      (keepGoing' = false → sink'.finishedState = sink.finishedState) := by
  induction fuel generalizing sink keepGoing with
  | zero =>
    have empty : sink.readQueue = [] := List.eq_nil_of_length_eq_zero (Nat.le_zero.mp enough)
    cases pumped
    simp [empty]
  | succ fuel ih =>
    rw [FifoSink.pumpReads] at pumped
    cases least : sink.readQueue.argmin (·.token.timestamp) with
    | none =>
      rw [least] at pumped
      cases pumped
      simp [List.argmin_eq_none.mp least]
    | some read =>
      have mem := List.argmin_mem least
      have shorter : (sink.readQueue.erase read).length < sink.readQueue.length := by
        rw [List.length_erase_of_mem mem]
        exact Nat.sub_lt (List.length_pos_of_mem mem) Nat.one_pos
      rw [least] at pumped
      by_cases current : read.token.timestamp = sink.finishedState.lastTimestamp
      · obtain ⟨advance, pulse, finish⟩ := inv.popRead mem current
        simp only [if_pos current, advance, Option.bind_eq_bind, Option.bind_some] at pumped
        cases isDummy : read.dummy with
        | false =>
          rw [isDummy, if_neg Bool.false_ne_true] at pumped
          obtain ⟨drained, writes, fewer, kept, going, same⟩ :=
            ih (pulse isDummy) (by simp only at shorter ⊢; omega) pumped
          refine ⟨drained, writes, by simp only at fewer ⊢; omega, kept, fun again => ?_,
            same⟩
          rcases going again with before | fewer'
          · exact .inl before
          · simp only at fewer'
            exact .inr (by omega)
        | true =>
          obtain ⟨sink'', finished, inv'⟩ := finish isDummy
          rw [isDummy, if_pos rfl, finished, Option.bind_some] at pumped
          have shape := FifoSink.finishAReader_eq finished
          rw [shape] at pumped inv'
          obtain ⟨drained, writes, fewer, kept, -, -⟩ :=
            ih inv' (by simp only at shorter ⊢; omega) pumped
          have again := kept rfl
          refine ⟨drained, writes, by simp only at fewer ⊢; omega, fun _ => again,
            fun _ => .inr (by simp only at fewer; omega), fun stopped => ?_⟩
          rw [again] at stopped
          cases stopped
      · simp only [if_neg current] at pumped
        cases pumped
        refine ⟨fun other memOther same => ?_, rfl, le_rfl, id, .inl, fun _ => rfl⟩
        -- the read of least timestamp is later than the finished timestamp, and so is every other
        have least' := List.le_of_mem_argmin memOther least
        have atLeast := inv.le_of_read_queued mem
        omega

/-- The `if` after the loop keeps `SinkInv`, its `rassert`s holding. -/
theorem SinkInv.pumpWrite (inv : SinkInv items begun ended sink) (issued : Issued writes items)
    (keepGoing : Bool) :
    ∃ sink' keepGoing', sink.pumpWrite keepGoing = some (sink', keepGoing') ∧
      SinkInv items begun ended sink' := by
  rw [FifoSink.pumpWrite]
  cases least : sink.writeQueue.argmin (·.token.timestamp) with
  | none => exact ⟨sink, keepGoing, rfl, inv⟩
  | some write =>
    by_cases next : write.token.timestamp = sink.finishedState.lastTimestamp + 1 ∧
        write.token.numPrecedingReads = sink.finishedState.numReads
    · obtain ⟨advance, pulse, finish⟩ :=
        inv.popWrite issued (List.argmin_mem least) next.1 next.2
      simp only [if_pos next, advance, Option.bind_eq_bind, Option.bind_some]
      cases isDummy : write.dummy with
      | false => exact ⟨_, keepGoing, rfl, pulse isDummy⟩
      | true =>
        obtain ⟨sink', finished, inv'⟩ := finish isDummy
        simp only [if_true, finished, Option.bind_some]
        exact ⟨sink', true, rfl, inv'⟩
    · simp only [if_neg next]
      exact ⟨sink, keepGoing, rfl, inv⟩

/-- After the loop has taken off every read of the finished timestamp, the `if` leaves nothing
that can go, unless it finished a dummy, which took the write off and sets
`pump_should_keep_going`. -/
theorem SinkInv.pumpWrite_settles (inv : SinkInv items begun ended sink)
    (issued : Issued writes items)
    (drained :
      ∀ read ∈ sink.readQueue, read.token.timestamp ≠ sink.finishedState.lastTimestamp)
    {keepGoing keepGoing' : Bool} {sink' : FifoSink}
    (pumped : sink.pumpWrite keepGoing = some (sink', keepGoing')) :
    sink'.readQueue = sink.readQueue ∧ sink'.writeQueue.length ≤ sink.writeQueue.length ∧
      (keepGoing = true → keepGoing' = true) ∧
      (keepGoing' = true →
        keepGoing = true ∨ sink'.writeQueue.length < sink.writeQueue.length) ∧
      (keepGoing' = false → sink'.Stable) := by
  rw [FifoSink.pumpWrite] at pumped
  cases least : sink.writeQueue.argmin (·.token.timestamp) with
  | none =>
    rw [least] at pumped
    cases pumped
    refine ⟨rfl, le_rfl, id, .inl, fun _ => ⟨drained, ?_⟩⟩
    simp [List.argmin_eq_none.mp least]
  | some write =>
    have mem := List.argmin_mem least
    rw [least] at pumped
    by_cases next : write.token.timestamp = sink.finishedState.lastTimestamp + 1 ∧
        write.token.numPrecedingReads = sink.finishedState.numReads
    · obtain ⟨advance, -, finish⟩ := inv.popWrite issued mem next.1 next.2
      have shorter : (sink.writeQueue.erase write).length < sink.writeQueue.length := by
        rw [List.length_erase_of_mem mem]
        exact Nat.sub_lt (List.length_pos_of_mem mem) Nat.one_pos
      -- the write taken off was the only one of its timestamp in line
      have gone : ∀ other ∈ sink.writeQueue.erase write,
          other.token.timestamp ≠ write.token.timestamp := by
        intro other memOther same
        have equal := inv.eq_of_write_queued issued (List.mem_of_mem_erase memOther) mem same
        subst equal
        have idGone := (mem_map_erase_iff inv.writes_nodup mem other.id).mp
          (List.mem_map_of_mem memOther)
        exact idGone.2 rfl
      simp only [if_pos next, advance, Option.bind_eq_bind, Option.bind_some] at pumped
      cases isDummy : write.dummy with
      | false =>
        rw [isDummy, if_neg Bool.false_ne_true] at pumped
        cases pumped
        refine ⟨rfl, Nat.le_of_lt shorter, id, fun again => .inl again,
          fun _ => ⟨drained, ?_⟩⟩
        intro other memOther ready
        exact gone other memOther (ready.1.trans next.1.symm)
      | true =>
        obtain ⟨sink'', finished, -⟩ := finish isDummy
        rw [isDummy, if_pos rfl, finished, Option.bind_some] at pumped
        cases pumped
        have shape := FifoSink.finishAWriter_eq finished
        rw [shape]
        exact ⟨rfl, Nat.le_of_lt shorter, fun _ => rfl, fun _ => .inr shorter,
          fun stopped => absurd stopped (by decide)⟩
    · simp only [if_neg next] at pumped
      cases pumped
      refine ⟨rfl, le_rfl, id, .inl,
        fun _ => ⟨drained, fun other memOther ready => next ?_⟩⟩
      -- the write of least timestamp is the only one that could be next
      have least' := List.le_of_mem_argmin memOther least
      have later := inv.lt_of_write_queued mem
      have equal := inv.eq_of_write_queued issued mem memOther (by omega)
      exact equal ▸ ready

/-- The `do ... while` loop of `internal_pump`, with more rounds than there are objects in line,
keeps `SinkInv` and stops where nothing in line can go. -/
theorem SinkInv.pumpRounds (inv : SinkInv items begun ended sink) (issued : Issued writes items)
    {fuel : Nat} (enough : sink.readQueue.length + sink.writeQueue.length < fuel) :
    ∃ sink', sink.pumpRounds fuel = some sink' ∧ SinkInv items begun ended sink' ∧
      sink'.Stable := by
  induction fuel generalizing sink with
  | zero => exact absurd enough (Nat.not_lt_zero _)
  | succ fuel ih =>
    obtain ⟨afterReads, keepGoing, reads, invReads⟩ := inv.pumpReads sink.readQueue.length false
    obtain ⟨afterWrite, keepGoing', write, invWrite⟩ := invReads.pumpWrite issued keepGoing
    obtain ⟨drained, sameWrites, -, -, readsGoing, -⟩ := inv.pumpReads_drains le_rfl reads
    obtain ⟨sameReads, fewerWrites, kept, writeGoing, settled⟩ :=
      invReads.pumpWrite_settles issued drained write
    rw [FifoSink.pumpRounds, reads, Option.bind_eq_bind, Option.bind_some]
    simp only [write, Option.bind_some]
    cases again : keepGoing'
    · exact ⟨afterWrite, rfl, invWrite, settled again⟩
    · -- the round finished a dummy, so there is one object fewer in line
      have fewer : afterWrite.readQueue.length + afterWrite.writeQueue.length <
          sink.readQueue.length + sink.writeQueue.length := by
        rcases writeGoing again with readsAgain | fewer'
        · rcases readsGoing readsAgain with impossible | fewerReads
          · cases impossible
          · rw [sameReads, ← sameWrites] at *
            omega
        · rw [sameReads, ← sameWrites] at *
          have : afterReads.readQueue.length ≤ sink.readQueue.length :=
            (inv.pumpReads_drains le_rfl reads).2.2.1
          omega
      exact ih invWrite (by omega)

/-- `internal_pump` keeps `SinkInv` and leaves nothing in line that could go. -/
theorem SinkInv.internalPump (inv : SinkInv items begun ended sink)
    (issued : Issued writes items) :
    ∃ sink', sink.internalPump = some sink' ∧ SinkInv items begun ended sink' ∧
      sink'.Stable :=
  inv.pumpRounds issued (Nat.lt_succ_self _)

/-- Leaving a dummy changes no token and no state, so nothing more can go. -/
theorem FifoSink.Stable.markRead (stable : sink.Stable) (j : Nat) :
    FifoSink.Stable { sink with readQueue := sink.readQueue.map fun read =>
      if read.id = j then { read with dummy := true } else read } := by
  refine ⟨fun read mem => ?_, stable.2⟩
  obtain ⟨read0, mem0, rfl⟩ := List.mem_map.mp mem
  have same :
      (if read0.id = j then { read0 with dummy := true } else read0).token = read0.token := by
    split <;> rfl
  rw [same]
  exact stable.1 read0 mem0

theorem FifoSink.Stable.markWrite (stable : sink.Stable) (j : Nat) :
    FifoSink.Stable { sink with writeQueue := sink.writeQueue.map fun write =>
      if write.id = j then { write with dummy := true } else write } := by
  refine ⟨stable.1, fun write mem => ?_⟩
  obtain ⟨write0, mem0, rfl⟩ := List.mem_map.mp mem
  have same : (if write0.id = j then { write0 with dummy := true } else write0).token =
      write0.token := by
    split <;> rfl
  rw [same]
  exact stable.2 write0 mem0

/-! ## Calls -/

/-- `exit_read_t(sink, token)`: the read gets in line and the sink pumps. -/
theorem SinkInv.beginRead (inv : SinkInv items begun ended sink) (issued : Issued writes items)
    {j : Nat} (fresh : j ∉ begun) {token : ReadToken} {value : α}
    (at_j : items[j]? = some (.read token, value)) :
    ∃ sink', sink.beginRead j token = some sink' ∧ SinkInv items (begun ++ [j]) ended sink' ∧
      sink'.Stable :=
  (inv.pushRead fresh at_j).internalPump issued

/-- `exit_write_t(sink, token)`. -/
theorem SinkInv.beginWrite (inv : SinkInv items begun ended sink) (issued : Issued writes items)
    {j : Nat} (fresh : j ∉ begun) {token : WriteToken} {value : α}
    (at_j : items[j]? = some (.write token, value)) :
    ∃ sink', sink.beginWrite j token = some sink' ∧ SinkInv items (begun ++ [j]) ended sink' ∧
      sink'.Stable :=
  (inv.pushWrite fresh at_j).internalPump issued

/-- `exit_read_t::end`: a pulsed read finishes and the sink pumps; one still in line leaves a
dummy. -/
theorem SinkInv.endRead (inv : SinkInv items begun ended sink) (issued : Issued writes items)
    (stable : sink.Stable) {j : Nat} (begunJ : j ∈ begun) (notEnded : j ∉ ended)
    {token : ReadToken} {value : α} (at_j : items[j]? = some (.read token, value)) :
    ∃ sink', sink.endRead j token = some sink' ∧ SinkInv items begun (ended ++ [j]) sink' ∧
      sink'.Stable := by
  unfold FifoSink.endRead
  by_cases pulsed : j ∈ sink.pulsed
  · obtain ⟨finishedSink, finished, inv'⟩ := inv.finishReader pulsed notEnded at_j
    obtain ⟨sink', pumped, inv'', stable'⟩ := inv'.internalPump issued
    rw [if_pos pulsed, FifoSink.internalFinishAReader, finished, Option.bind_some, pumped]
    exact ⟨sink', rfl, inv'', stable'⟩
  · rw [if_neg pulsed]
    exact ⟨_, rfl, inv.markRead begunJ notEnded pulsed at_j, stable.markRead j⟩

/-- `exit_write_t::end`. -/
theorem SinkInv.endWrite (inv : SinkInv items begun ended sink) (issued : Issued writes items)
    (stable : sink.Stable) {j : Nat} (begunJ : j ∈ begun) (notEnded : j ∉ ended)
    {token : WriteToken} {value : α} (at_j : items[j]? = some (.write token, value)) :
    ∃ sink', sink.endWrite j token = some sink' ∧ SinkInv items begun (ended ++ [j]) sink' ∧
      sink'.Stable := by
  unfold FifoSink.endWrite
  by_cases pulsed : j ∈ sink.pulsed
  · obtain ⟨finishedSink, finished, inv'⟩ := inv.finishWriter issued pulsed notEnded at_j
    obtain ⟨sink', pumped, inv'', stable'⟩ := inv'.internalPump issued
    rw [if_pos pulsed, FifoSink.internalFinishAWriter, finished, Option.bind_some, pumped]
    exact ⟨sink', rfl, inv'', stable'⟩
  · rw [if_neg pulsed]
    exact ⟨_, rfl, inv.markWrite begunJ notEnded pulsed at_j, stable.markWrite j⟩

variable {run run' : SinkRun}

/-- A call that goes through was one the object may make. -/
theorem SinkRun.allowed_of_step {event : SinkEvent} (stepped : run.step items event = some run') :
    run.Allowed items event := by
  cases event with
  | begin j =>
    rw [SinkRun.step] at stepped
    by_cases begunJ : j ∈ run.begun
    · rw [if_pos begunJ] at stepped
      cases stepped
    · refine ⟨?_, begunJ⟩
      by_contra beyond
      rw [if_neg begunJ, List.getElem?_eq_none (Nat.le_of_not_lt beyond)] at stepped
      cases stepped
  | leave j =>
    rw [SinkRun.step] at stepped
    by_contra notAllowed
    rw [if_neg (show ¬(j ∈ run.begun ∧ j ∉ run.ended) from notAllowed)] at stepped
    cases stepped

/-- Each call an object may make goes through, keeps `SinkInv` and leaves nothing in line that
could go. -/
theorem SinkInv.step (inv : SinkInv items run.begun run.ended run.sink)
    (issued : Issued writes items) (stable : run.sink.Stable) {event : SinkEvent}
    (allowed : run.Allowed items event) :
    ∃ run', run.step items event = some run' ∧ SinkInv items run'.begun run'.ended run'.sink ∧
      run'.sink.Stable := by
  cases event with
  | begin j =>
    obtain ⟨lt, fresh⟩ := allowed
    obtain ⟨⟨token, value⟩, at_j⟩ : ∃ item, items[j]? = some item :=
      ⟨_, List.getElem?_eq_getElem lt⟩
    rw [SinkRun.step, if_neg fresh, at_j]
    cases token with
    | read token =>
      obtain ⟨sink', began, inv', stable'⟩ := inv.beginRead issued fresh at_j
      refine ⟨⟨sink', run.begun ++ [j], run.ended⟩, ?_, inv', stable'⟩
      simp only [began, Option.map_some]
    | write token =>
      obtain ⟨sink', began, inv', stable'⟩ := inv.beginWrite issued fresh at_j
      refine ⟨⟨sink', run.begun ++ [j], run.ended⟩, ?_, inv', stable'⟩
      simp only [began, Option.map_some]
  | leave j =>
    obtain ⟨begunJ, notEnded⟩ := allowed
    obtain ⟨⟨token, value⟩, at_j⟩ : ∃ item, items[j]? = some item :=
      ⟨_, List.getElem?_eq_getElem (inv.begun_lt j begunJ)⟩
    rw [SinkRun.step, if_pos ⟨begunJ, notEnded⟩, at_j]
    cases token with
    | read token =>
      obtain ⟨sink', ended', inv', stable'⟩ := inv.endRead issued stable begunJ notEnded at_j
      refine ⟨⟨sink', run.begun, run.ended ++ [j]⟩, ?_, inv', stable'⟩
      simp only [ended', Option.map_some]
    | write token =>
      obtain ⟨sink', ended', inv', stable'⟩ := inv.endWrite issued stable begunJ notEnded at_j
      refine ⟨⟨sink', run.begun, run.ended ++ [j]⟩, ?_, inv', stable'⟩
      simp only [ended', Option.map_some]

/-- Every state of a run has `SinkInv`, with nothing in line that could go. -/
theorem SinkRun.Reachable.sinkInv (issued : Issued writes items)
    (reachable : run.Reachable items) :
    SinkInv items run.begun run.ended run.sink ∧ run.sink.Stable := by
  induction reachable with
  | init => exact ⟨sinkInv_init issued, fun _ absent => absurd absent List.not_mem_nil,
      fun _ absent => absurd absent List.not_mem_nil⟩
  | step event _ stepped ih =>
    obtain ⟨run'', stepped', inv, stable⟩ :=
      ih.1.step issued ih.2 (SinkRun.allowed_of_step stepped)
    rw [stepped] at stepped'
    cases stepped'
    exact ⟨inv, stable⟩

/-! ## The order the source hands tokens out in -/

/-- Of two tokens a source hands out, the later one has no smaller timestamp, and a greater one
if it is a write. -/
def IssuedBefore (first second : Token) : Prop :=
  first.timestamp ≤ second.timestamp ∧
    (second.isWrite = true → first.timestamp < second.timestamp)

/-- Every token a source hands out is of its last timestamp or later, and a write of a later
one. -/
theorem issue_after {source : FifoSource} {requests : List (Access × α)} {item : Token × α}
    (mem : item ∈ source.issue requests) :
    source.state.lastTimestamp ≤ item.1.timestamp ∧
      (item.1.isWrite = true → source.state.lastTimestamp < item.1.timestamp) := by
  obtain ⟨token, value⟩ := item
  cases token with
  | read token =>
    exact ⟨(issue_read_within mem).1, fun isWrite => Bool.false_ne_true isWrite |>.elim⟩
  | write token =>
    have present := writesAt_pos mem
    rw [writesAt_issue] at present
    have later : source.state.lastTimestamp < token.timestamp := by
      by_contra notLater
      rw [if_neg fun within => notLater within.1] at present
      exact Nat.lt_irrefl 0 present
    exact ⟨Nat.le_of_lt later, fun _ => later⟩

/-- The tokens of a source come in `IssuedBefore` order. -/
theorem pairwise_issue (source : FifoSource) (requests : List (Access × α)) :
    (source.issue requests).Pairwise fun first second => IssuedBefore first.1 second.1 := by
  induction requests generalizing source with
  | nil => exact List.Pairwise.nil
  | cons request requests ih =>
    obtain ⟨access, value⟩ := request
    cases access with
    | read =>
      -- a read is of the source's last timestamp, which the tokens after it keep
      refine List.Pairwise.cons (fun item mem => ?_) (ih _)
      have later := issue_after mem
      exact later
    | write =>
      -- a write is of the next timestamp, which the source then holds
      refine List.Pairwise.cons (fun item mem => ?_) (ih _)
      have later := issue_after mem
      exact later

/-- An earlier position of a source's tokens holds an `IssuedBefore` token. -/
theorem issuedBefore_of_lt {requests : List (Access × α)} {i j : Nat} {first second : Token × α}
    (earlier : i < j) (at_i : (FifoSource.init.issue requests)[i]? = some first)
    (at_j : (FifoSource.init.issue requests)[j]? = some second) :
    IssuedBefore first.1 second.1 := by
  obtain ⟨iLt, rfl⟩ := List.getElem?_eq_some_iff.mp at_i
  obtain ⟨jLt, rfl⟩ := List.getElem?_eq_some_iff.mp at_j
  exact List.pairwise_iff_getElem.mp (pairwise_issue _ requests) i j iLt jLt earlier

/-! ## What the sink lets through -/

/-- `popped_state` is never more than one write ahead of `finished_state`. -/
theorem Epochs.popped_le (epochs : Epochs items popped finished poppedState finishedState) :
    poppedState.lastTimestamp ≤ finishedState.lastTimestamp + 1 := by
  rcases epochs.popped_state with ⟨same, -⟩ | ⟨next, -⟩ <;> omega

section Order

variable {requests : List (Access × α)}

/-- A pulsed write: every object before it has ended. -/
theorem SinkInv.ended_before_write (inv : SinkInv (FifoSource.init.issue requests) begun ended sink)
    {w : Nat} (pulsed : w ∈ sink.pulsed) {token : WriteToken} {value : α}
    (at_w : (FifoSource.init.issue requests)[w]? = some (.write token, value)) {j : Nat}
    (earlier : j < w) : j ∈ ended := by
  have upTo := (inv.epochs.popped_writes w token value at_w).mp (inv.pulsed_popped w pulsed)
  have ahead := inv.epochs.popped_le
  obtain ⟨⟨token', value'⟩, at_j⟩ :
      ∃ item, (FifoSource.init.issue requests)[j]? = some item :=
    ⟨_, List.getElem?_eq_getElem (earlier.trans (List.getElem?_eq_some_iff.mp at_w).1)⟩
  -- the object before the write is of an earlier timestamp
  have below : token'.timestamp < token.timestamp := (issuedBefore_of_lt earlier at_j at_w).2 rfl
  cases token' with
  | write token' =>
    have earlierWrite : token'.timestamp < token.timestamp := below
    exact ((inv.epochs.finished_writes j token' value' at_j).mpr (by omega)).2
  | read token' =>
    simp only [Token.timestamp] at below
    by_cases past : token'.timestamp < sink.finishedState.lastTimestamp
    · exact (inv.epochs.finished_reads j token' value' at_j past).2
    · -- a read of the finished timestamp: the write is the next one, so it was popped after
      -- every such read finished
      rcases inv.epochs.popped_state with ⟨same, -⟩ | ⟨-, -, done, -⟩
      · omega
      · exact (done j ((isReadAt_iff at_j).mpr (by omega))).2

/-- A pulsed read: every write before it has ended. -/
theorem SinkInv.ended_before_read (inv : SinkInv (FifoSource.init.issue requests) begun ended sink)
    {r : Nat} (pulsed : r ∈ sink.pulsed) {token : ReadToken} {value : α}
    (at_r : (FifoSource.init.issue requests)[r]? = some (.read token, value)) {j : Nat}
    (earlier : j < r) {token' : WriteToken} {value' : α}
    (at_j : (FifoSource.init.issue requests)[j]? = some (.write token', value')) : j ∈ ended := by
  have current : token.timestamp ≤ sink.finishedState.lastTimestamp :=
    Nat.le_of_not_lt fun above =>
      inv.epochs.unpopped_reads r token value at_r above (inv.pulsed_popped r pulsed)
  have before : token'.timestamp ≤ token.timestamp := (issuedBefore_of_lt earlier at_j at_r).1
  exact ((inv.epochs.finished_writes j token' value' at_j).mpr (before.trans current)).2

/-- The entry of a read that is in line. -/
theorem SinkInv.read_entry (inv : SinkInv items begun ended sink) {j : Nat} (inLine : sink.InLine j)
    {token : ReadToken} {value : α} (at_j : items[j]? = some (.read token, value)) :
    ∃ read ∈ sink.readQueue, read.id = j ∧ read.token = token := by
  rcases inLine with inReads | inWrites
  · obtain ⟨read, mem, rfl⟩ := List.mem_map.mp inReads
    obtain ⟨-, ⟨value', at_r⟩, -⟩ := inv.reads_queued read mem
    rw [at_j] at at_r
    cases at_r
    exact ⟨read, mem, rfl, rfl⟩
  · obtain ⟨write, mem, rfl⟩ := List.mem_map.mp inWrites
    obtain ⟨-, ⟨value', at_w⟩, -⟩ := inv.writes_queued write mem
    exact absurd rfl (ne_of_read_of_write at_j at_w)

/-- The entry of a write that is in line. -/
theorem SinkInv.write_entry (inv : SinkInv items begun ended sink) {j : Nat}
    (inLine : sink.InLine j) {token : WriteToken} {value : α}
    (at_j : items[j]? = some (.write token, value)) :
    ∃ write ∈ sink.writeQueue, write.id = j ∧ write.token = token := by
  rcases inLine with inReads | inWrites
  · obtain ⟨read, mem, rfl⟩ := List.mem_map.mp inReads
    obtain ⟨-, ⟨value', at_r⟩, -⟩ := inv.reads_queued read mem
    exact absurd rfl (ne_of_read_of_write at_r at_j)
  · obtain ⟨write, mem, rfl⟩ := List.mem_map.mp inWrites
    obtain ⟨-, ⟨value', at_w⟩, -⟩ := inv.writes_queued write mem
    rw [at_j] at at_w
    cases at_w
    exact ⟨write, mem, rfl, rfl⟩

/-- There is a write of every timestamp from `1` to the number of writes. -/
theorem Issued.exists_write (issued : Issued writes items) {t : Nat} (positive : 0 < t)
    (upTo : t ≤ writes) :
    ∃ j : Nat, ∃ token : WriteToken, ∃ value : α, items[j]? = some (.write token, value) ∧
      token.timestamp = t := by
  have one := issued.writesAt_eq t
  rw [if_pos ⟨positive, upTo⟩] at one
  have present : 0 < items.countP (·.1.isWriteAt t) := by
    unfold writesAt at one
    omega
  obtain ⟨⟨token, value⟩, mem, isWrite⟩ := List.countP_pos_iff.mp present
  obtain ⟨j, at_j⟩ := List.mem_iff_getElem?.mp mem
  cases token with
  | read token => simp [Token.isWriteAt] at isWrite
  | write token => exact ⟨j, token, value, at_j, by simpa [Token.isWriteAt] using isWrite⟩

/-- No token is of a timestamp beyond the number of writes. -/
theorem Issued.le_writes (issued : Issued writes items) {j : Nat} {item : Token × α}
    (at_j : items[j]? = some item) : item.1.timestamp ≤ writes := by
  obtain ⟨token, value⟩ := item
  cases token with
  | read token => exact issued.read_le token value (List.mem_of_getElem? at_j)
  | write token =>
    have present := writesAt_pos (List.mem_of_getElem? at_j)
    rw [issued.writesAt_eq] at present
    by_contra beyond
    rw [if_neg fun within => beyond within.2] at present
    exact Nat.lt_irrefl 0 present

end Order

end Invariant

section Runs

variable {α : Type} {run : SinkRun}

/-- In every run of the sink over a source's tokens, with objects begun and ended in any order:
every call an object may make goes through, no `rassert` of the sink failing; a write is pulsed
only once every object the source handed out before it has ended; a read is pulsed only once
every write before it has ended; so while a pulsed write has not ended, every other pulsed
object has. -/
theorem fifo_sink_admits_in_order (requests : List (Access × α))
    (reachable : run.Reachable (FifoSource.init.issue requests)) :
    (∀ event, run.Allowed (FifoSource.init.issue requests) event →
      ∃ run', run.step (FifoSource.init.issue requests) event = some run') ∧
    (∀ w ∈ run.sink.pulsed, ∀ token value,
      (FifoSource.init.issue requests)[w]? = some (.write token, value) →
      ∀ j < w, j ∈ run.ended) ∧
    (∀ r ∈ run.sink.pulsed, ∀ token value,
      (FifoSource.init.issue requests)[r]? = some (.read token, value) →
      ∀ j < r, ∀ token' value',
        (FifoSource.init.issue requests)[j]? = some (.write token', value') → j ∈ run.ended) ∧
    (∀ w ∈ run.sink.pulsed, w ∉ run.ended → ∀ token value,
      (FifoSource.init.issue requests)[w]? = some (.write token, value) →
      ∀ j ∈ run.sink.pulsed, j ≠ w → j ∈ run.ended) := by
  have issued := issued_issue requests
  have inv := (reachable.sinkInv issued).1
  refine ⟨fun event allowed => ?_,
    fun w pulsed token value at_w j earlier => inv.ended_before_write pulsed at_w earlier,
    fun r pulsed token value at_r j earlier token' value' at_j =>
      inv.ended_before_read pulsed at_r earlier at_j, ?_⟩
  · obtain ⟨run', stepped, -⟩ := inv.step issued (reachable.sinkInv issued).2 allowed
    exact ⟨run', stepped⟩
  · intro w pulsedW running token value at_w j pulsedJ other
    rcases Nat.lt_or_gt_of_ne other with earlier | later
    · exact inv.ended_before_write pulsedW at_w earlier
    · -- an object after the pulsed write could only be pulsed once the write had ended
      obtain ⟨⟨token', value'⟩, at_j⟩ :
          ∃ item, (FifoSource.init.issue requests)[j]? = some item :=
        ⟨_, List.getElem?_eq_getElem (inv.begun_lt j (inv.pulsed_popped j pulsedJ).1)⟩
      cases token' with
      | write token' => exact absurd (inv.ended_before_write pulsedJ at_j later) running
      | read token' => exact absurd (inv.ended_before_read pulsedJ at_j later at_w) running

/-- A write that begins before the read the source handed out ahead of it waits for it: once
the read has ended, the write is pulsed. -/
theorem fifo_sink_write_waits_for_read :
    ∃ run : SinkRun,
      run.Reachable (FifoSource.init.issue [(Access.read, ()), (Access.write, ())]) ∧
      1 ∈ run.sink.pulsed ∧ 1 ∉ run.ended ∧
      ((∀ event,
          run.Allowed (FifoSource.init.issue [(Access.read, ()), (Access.write, ())]) event →
          ∃ run', run.step (FifoSource.init.issue [(Access.read, ()), (Access.write, ())]) event =
            some run') ∧
        (∀ w ∈ run.sink.pulsed, ∀ token value,
          (FifoSource.init.issue [(Access.read, ()), (Access.write, ())])[w]? =
            some (.write token, value) → ∀ j < w, j ∈ run.ended) ∧
        (∀ r ∈ run.sink.pulsed, ∀ token value,
          (FifoSource.init.issue [(Access.read, ()), (Access.write, ())])[r]? =
            some (.read token, value) → ∀ j < r, ∀ token' value',
            (FifoSource.init.issue [(Access.read, ()), (Access.write, ())])[j]? =
              some (.write token', value') → j ∈ run.ended) ∧
        (∀ w ∈ run.sink.pulsed, w ∉ run.ended → ∀ token value,
          (FifoSource.init.issue [(Access.read, ()), (Access.write, ())])[w]? =
            some (.write token, value) →
            ∀ j ∈ run.sink.pulsed, j ≠ w → j ∈ run.ended)) := by
  -- the write gets in line first, then the read is pulsed, then it ends
  have writeWaits := @SinkRun.Reachable.step _
    (FifoSource.init.issue [(Access.read, ()), (Access.write, ())]) _ _ (.begin 1) .init rfl
  have readGoes := @SinkRun.Reachable.step _ _ _ _ (.begin 0) writeWaits rfl
  have writeGoes := @SinkRun.Reachable.step _ _ _ _ (.leave 0) readGoes rfl
  exact ⟨_, writeGoes, by decide, by decide, fifo_sink_admits_in_order _ writeGoes⟩

/-- In every run of the sink over a source's tokens: once every object below `k` has begun and
every pulsed object has ended, no object below `k` waits in line, itself or as its dummy; each
was pulsed, or ended before its turn and its dummy has gone. -/
theorem fifo_sink_drains (requests : List (Access × α))
    (reachable : run.Reachable (FifoSource.init.issue requests)) {k : Nat}
    (allBegun : ∀ j < k, j ∈ run.begun)
    (allEnded : ∀ j ∈ run.sink.pulsed, j ∈ run.ended) :
    ∀ j < k, ¬run.sink.InLine j := by
  have issued := issued_issue requests
  obtain ⟨inv, stable⟩ := reachable.sinkInv issued
  -- a popped object has ended, since every pulsed one has
  have poppedEnded : ∀ i, Popped run.begun run.sink i → i ∈ run.ended := by
    intro i popped
    by_contra notEnded
    exact notEnded (allEnded i (inv.popped_pulsed i popped notEnded))
  -- so no write runs, and `popped_state` is at the finished timestamp
  have atFinished :
      run.sink.poppedState.lastTimestamp = run.sink.finishedState.lastTimestamp := by
    rcases inv.epochs.popped_state with ⟨same, -⟩ | ⟨next, -, -, pW, tokW, vW, atW, tsW⟩
    · exact same
    · have poppedW := (inv.epochs.popped_writes pW tokW vW atW).mpr (by omega)
      have done :=
        (inv.epochs.finished_writes pW tokW vW atW).mp ⟨poppedW, poppedEnded pW poppedW⟩
      omega
  intro j lt inLine
  obtain ⟨⟨tok, v⟩, at_j⟩ : ∃ item, (FifoSource.init.issue requests)[j]? = some item :=
    ⟨_, List.getElem?_eq_getElem (inv.begun_lt j (allBegun j lt))⟩
  -- an object in line is of a timestamp after the finished one
  have after : run.sink.finishedState.lastTimestamp < tok.timestamp := by
    cases tok with
    | read token =>
      obtain ⟨read, mem, rfl, rfl⟩ := inv.read_entry inLine at_j
      have atLeast := inv.le_of_read_queued mem
      have other := stable.1 read mem
      show _ < read.token.timestamp
      omega
    | write token =>
      obtain ⟨write, mem, rfl, rfl⟩ := inv.write_entry inLine at_j
      exact inv.lt_of_write_queued mem
  -- so the next write exists and comes no later than it
  obtain ⟨pW, tokW, vW, atW, tsW⟩ := issued.exists_write
    (show 0 < run.sink.finishedState.lastTimestamp + 1 by omega)
    (Nat.succ_le_of_lt (Nat.lt_of_lt_of_le after (issued.le_writes at_j)))
  have upToJ : pW ≤ j := by
    by_contra later
    have below : tok.timestamp < tokW.timestamp :=
      (issuedBefore_of_lt (Nat.lt_of_not_le later) at_j atW).2 rfl
    omega
  -- that write has begun and has not been popped, so it is in line
  have writeInLine : run.sink.InLine pW := by
    by_contra notInLine
    have popped := (inv.epochs.popped_writes pW tokW vW atW).mp
      ⟨allBegun pW (Nat.lt_of_le_of_lt upToJ lt), notInLine⟩
    omega
  -- and every read before it has finished: the reads of the finished timestamp come before it,
  -- have begun, and none is in line
  have readsDone : ∀ i, IsReadAt (FifoSource.init.issue requests)
      run.sink.finishedState.lastTimestamp i → Finished run.begun run.ended run.sink i := by
    intro i reads
    obtain ⟨tokR, vR, atR, tsR⟩ := exists_of_isReadAt reads
    have before : i < pW := by
      by_contra notBefore
      rcases Nat.lt_or_eq_of_le (Nat.le_of_not_lt notBefore) with later | same
      · have above := (issuedBefore_of_lt later atW atR).1
        simp only [Token.timestamp] at above
        omega
      · exact ne_of_read_of_write atR atW same.symm
    have notInLine : ¬run.sink.InLine i := by
      intro inLineR
      obtain ⟨read, memR, rfl, rfl⟩ := inv.read_entry inLineR atR
      exact stable.1 read memR tsR
    have popped : Popped run.begun run.sink i :=
      ⟨allBegun i (by omega), notInLine⟩
    exact ⟨popped, poppedEnded i popped⟩
  -- then the pump would have let the write go
  obtain ⟨write, memW, rfl, rfl⟩ := inv.write_entry writeInLine atW
  apply stable.2 write memW
  refine ⟨tsW, ?_⟩
  rw [issued.precedingReads_eq atW, tsW, Nat.add_sub_cancel, inv.epochs.finished_count]
  exact count_congr fun i _ => ⟨fun reads => ⟨reads, readsDone i reads⟩, fun both => both.1⟩

/-- A write that ends before its turn leaves a dummy, and the dummy goes once the read before it
has ended: both objects begun and nothing running, nothing is left in line. -/
theorem fifo_sink_drains_dummy :
    ∃ run : SinkRun,
      run.Reachable (FifoSource.init.issue [(Access.read, ()), (Access.write, ())]) ∧
      (∀ j < 2, j ∈ run.begun) ∧ (∀ j ∈ run.sink.pulsed, j ∈ run.ended) ∧
      ∀ j < 2, ¬run.sink.InLine j := by
  -- the write gets in line and ends there, then the read begins and ends
  have writeWaits := @SinkRun.Reachable.step _
    (FifoSource.init.issue [(Access.read, ()), (Access.write, ())]) _ _ (.begin 1) .init rfl
  have writeLeaves := @SinkRun.Reachable.step _ _ _ _ (.leave 1) writeWaits rfl
  have readGoes := @SinkRun.Reachable.step _ _ _ _ (.begin 0) writeLeaves rfl
  have readEnds := @SinkRun.Reachable.step _ _ _ _ (.leave 0) readGoes rfl
  exact ⟨_, readEnds, by decide, by decide, fifo_sink_drains _ readEnds (by decide) (by decide)⟩

end Runs

end Concurrency
end RethinkDB
