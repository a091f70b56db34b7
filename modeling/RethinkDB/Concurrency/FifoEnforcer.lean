import RethinkDB.Concurrency.Rwlock

/-!
# FIFO enforcement

`fifo_enforcer_source_t` (`concurrency/fifo_enforcer.cc`) hands out tokens.  A read token has the
timestamp of the last write; a write token has the next timestamp and the number of reads handed
out since the write before it.  `fifo_enforcer_sink_t` lets the objects that carry the tokens
through in the order the source handed them out, but for reads between the same two writes,
which may pass each other.  Each `exit_read_t` and `exit_write_t` waits in a priority queue
ordered by timestamp, and `internal_pump` pulses those whose turn has come by the sink's
`finished_state`.  An object that ends before it is pulsed leaves a dummy in its place, which
finishes when its turn comes.

The timestamps, 64-bit counters in the source, are natural numbers here, and so are the read
counts.  A failed `rassert` is `none`.  Of the objects of a priority queue with the least
timestamp the model takes the first pushed; the heap of `intrusive_priority_queue_t` takes one
of them.  An exit object is known by a number, and `pulsed` lists those whose signal was pulsed.
-/

namespace RethinkDB
namespace Concurrency

/-- `fifo_enforcer_read_token_t`. -/
structure ReadToken where
  timestamp : Nat
  deriving DecidableEq, Repr

/-- `fifo_enforcer_write_token_t`. -/
structure WriteToken where
  timestamp : Nat
  numPrecedingReads : Nat
  deriving DecidableEq, Repr

/-- `fifo_enforcer_state_t`. -/
structure FifoState where
  lastTimestamp : Nat
  numReads : Nat
  deriving DecidableEq, Repr

/-- `fifo_enforcer_state_t::advance_by_read`. -/
def FifoState.advanceByRead (state : FifoState) (token : ReadToken) : Option FifoState :=
  if state.lastTimestamp = token.timestamp then some { state with numReads := state.numReads + 1 }
  else none

/-- `fifo_enforcer_state_t::advance_by_write`. -/
def FifoState.advanceByWrite (state : FifoState) (token : WriteToken) : Option FifoState :=
  if state.lastTimestamp + 1 = token.timestamp ∧ state.numReads = token.numPrecedingReads then
    some ⟨token.timestamp, 0⟩
  else none

/-! ## The source -/

/-- `fifo_enforcer_source_t`. -/
structure FifoSource where
  state : FifoState

/-- `fifo_enforcer_source_t()`. -/
def FifoSource.init : FifoSource := ⟨⟨0, 0⟩⟩

/-- `fifo_enforcer_source_t::enter_read`. -/
def FifoSource.enterRead (source : FifoSource) : ReadToken × FifoSource :=
  (⟨source.state.lastTimestamp⟩, ⟨{ source.state with numReads := source.state.numReads + 1 }⟩)

/-- `fifo_enforcer_source_t::enter_write`. -/
def FifoSource.enterWrite (source : FifoSource) : WriteToken × FifoSource :=
  let lastTimestamp := source.state.lastTimestamp + 1
  (⟨lastTimestamp, source.state.numReads⟩, ⟨⟨lastTimestamp, 0⟩⟩)

/-- A token of either kind, as the unit test's `boost::variant`. -/
inductive Token where
  | read (token : ReadToken)
  | write (token : WriteToken)
  deriving DecidableEq, Repr

/-- The tokens a source hands out for a run of requests, each with the value it is for. -/
def FifoSource.issue {α : Type} : FifoSource → List (Access × α) → List (Token × α)
  | _, [] => []
  | source, (.read, value) :: requests =>
    (.read source.enterRead.1, value) :: source.enterRead.2.issue requests
  | source, (.write, value) :: requests =>
    (.write source.enterWrite.1, value) :: source.enterWrite.2.issue requests

/-! ## The sink -/

/-- An `internal_exit_read_t` in the sink's queue: the `exit_read_t` numbered `id`, or the
`dummy_exit_read_t` that took its place when it ended before it was pulsed. -/
structure ExitRead where
  id : Nat
  token : ReadToken
  dummy : Bool
  deriving DecidableEq, Repr

/-- An `internal_exit_write_t` in the sink's queue. -/
structure ExitWrite where
  id : Nat
  token : WriteToken
  dummy : Bool
  deriving DecidableEq, Repr

/-- `fifo_enforcer_sink_t`: its two queues, `popped_state` and `finished_state`. -/
structure FifoSink where
  readQueue : List ExitRead
  writeQueue : List ExitWrite
  poppedState : FifoState
  finishedState : FifoState
  pulsed : List Nat
  deriving DecidableEq, Repr

/-- `fifo_enforcer_sink_t()`. -/
def FifoSink.init : FifoSink := ⟨[], [], ⟨0, 0⟩, ⟨0, 0⟩, []⟩

/-- The assertions and the update of `internal_finish_a_reader`, before it pumps. -/
def FifoSink.finishAReader (sink : FifoSink) (token : ReadToken) : Option FifoSink :=
  if sink.poppedState.lastTimestamp = token.timestamp ∧
      sink.finishedState.numReads ≤ sink.poppedState.numReads then
    (sink.finishedState.advanceByRead token).map fun finishedState => { sink with finishedState }
  else none

/-- The assertions and the update of `internal_finish_a_writer`, before it pumps. -/
def FifoSink.finishAWriter (sink : FifoSink) (token : WriteToken) : Option FifoSink :=
  if sink.poppedState.lastTimestamp = token.timestamp ∧ sink.poppedState.numReads = 0 then
    (sink.finishedState.advanceByWrite token).map fun finishedState => { sink with finishedState }
  else none

/-- The `while` loop of `internal_pump`: the read of least timestamp goes while it is of the last
write.  A dummy finishes its read at once, and the `internal_pump` that this calls only sets
`pump_should_keep_going`, the flag.  Each round takes an object off, so the length of the queue
is fuel enough. -/
def FifoSink.pumpReads : Nat → FifoSink → Bool → Option (FifoSink × Bool)
  | 0, sink, keepGoing => some (sink, keepGoing)
  | fuel + 1, sink, keepGoing =>
    match sink.readQueue.argmin (·.token.timestamp) with
    | none => some (sink, keepGoing)
    | some read =>
      if read.token.timestamp = sink.finishedState.lastTimestamp then do
        let poppedState ← sink.poppedState.advanceByRead read.token
        let sink := { sink with readQueue := sink.readQueue.erase read, poppedState }
        if read.dummy then
          let sink ← sink.finishAReader read.token
          pumpReads fuel sink true
        else pumpReads fuel { sink with pulsed := sink.pulsed ++ [read.id] } keepGoing
      else some (sink, keepGoing)

/-- The `if` after the loop: the write of least timestamp goes when it is the next write and
every read before it has finished. -/
def FifoSink.pumpWrite (sink : FifoSink) (keepGoing : Bool) : Option (FifoSink × Bool) :=
  match sink.writeQueue.argmin (·.token.timestamp) with
  | none => some (sink, keepGoing)
  | some write =>
    if write.token.timestamp = sink.finishedState.lastTimestamp + 1 ∧
        write.token.numPrecedingReads = sink.finishedState.numReads then do
      let poppedState ← sink.poppedState.advanceByWrite write.token
      let sink := { sink with writeQueue := sink.writeQueue.erase write, poppedState }
      if write.dummy then
        let sink ← sink.finishAWriter write.token
        some (sink, true)
      else some ({ sink with pulsed := sink.pulsed ++ [write.id] }, keepGoing)
    else some (sink, keepGoing)

/-- The `do ... while (pump_should_keep_going)` loop of `internal_pump`.  A round is repeated
only after a dummy finished, and that took an object off, so one round more than there are
objects is fuel enough. -/
def FifoSink.pumpRounds : Nat → FifoSink → Option FifoSink
  | 0, sink => some sink
  | fuel + 1, sink => do
    let (sink, keepGoing) ← sink.pumpReads sink.readQueue.length false
    let (sink, keepGoing) ← sink.pumpWrite keepGoing
    if keepGoing then pumpRounds fuel sink else some sink

/-- `fifo_enforcer_sink_t::internal_pump`, called from outside a pump. -/
def FifoSink.internalPump (sink : FifoSink) : Option FifoSink :=
  sink.pumpRounds (sink.readQueue.length + sink.writeQueue.length + 1)

/-- `fifo_enforcer_sink_t::internal_finish_a_reader`. -/
def FifoSink.internalFinishAReader (sink : FifoSink) (token : ReadToken) : Option FifoSink :=
  (sink.finishAReader token).bind FifoSink.internalPump

/-- `fifo_enforcer_sink_t::internal_finish_a_writer`. -/
def FifoSink.internalFinishAWriter (sink : FifoSink) (token : WriteToken) : Option FifoSink :=
  (sink.finishAWriter token).bind FifoSink.internalPump

/-- `exit_read_t(sink, token)`, which calls `begin`: the object numbered `id` gets in line. -/
def FifoSink.beginRead (sink : FifoSink) (id : Nat) (token : ReadToken) : Option FifoSink :=
  { sink with readQueue := sink.readQueue ++ [ExitRead.mk id token false] }.internalPump

/-- `exit_write_t(sink, token)`. -/
def FifoSink.beginWrite (sink : FifoSink) (id : Nat) (token : WriteToken) : Option FifoSink :=
  { sink with writeQueue := sink.writeQueue ++ [ExitWrite.mk id token false] }.internalPump

/-- `exit_read_t::end`: a pulsed object finishes its read, one still in line leaves a dummy. -/
def FifoSink.endRead (sink : FifoSink) (id : Nat) (token : ReadToken) : Option FifoSink :=
  if id ∈ sink.pulsed then sink.internalFinishAReader token
  else some { sink with readQueue := sink.readQueue.map fun read =>
    if read.id = id then { read with dummy := true } else read }

/-- `exit_write_t::end`. -/
def FifoSink.endWrite (sink : FifoSink) (id : Nat) (token : WriteToken) : Option FifoSink :=
  if id ∈ sink.pulsed then sink.internalFinishAWriter token
  else some { sink with writeQueue := sink.writeQueue.map fun write =>
    if write.id = id then { write with dummy := true } else write }

/-! ## The tokens a source hands out

Between two writes the source hands out any number of reads, of the timestamp of the first; the
writes get the timestamps `1, 2, ...` in turn, and each counts the reads handed out since the one
before. -/

/-- Whether a token is a read token of timestamp `e`. -/
def Token.isReadAt (e : Nat) : Token → Bool
  | .read token => token.timestamp == e
  | .write _ => false

/-- Whether a token is a write token of timestamp `e`. -/
def Token.isWriteAt (e : Nat) : Token → Bool
  | .read _ => false
  | .write token => token.timestamp == e

section Issue

variable {α : Type}

/-- How many of the items carry a read token of timestamp `e`. -/
def readsAt (e : Nat) (items : List (Token × α)) : Nat := items.countP (·.1.isReadAt e)

/-- How many of the items carry a write token of timestamp `e`. -/
def writesAt (e : Nat) (items : List (Token × α)) : Nat := items.countP (·.1.isWriteAt e)

/-- How many of the requests are writes. -/
def writeCount (requests : List (Access × α)) : Nat := requests.countP (·.1 == .write)

@[simp] theorem readsAt_nil (e : Nat) : readsAt e ([] : List (Token × α)) = 0 := rfl

@[simp] theorem writesAt_nil (e : Nat) : writesAt e ([] : List (Token × α)) = 0 := rfl

@[simp] theorem readsAt_append (e : Nat) (first second : List (Token × α)) :
    readsAt e (first ++ second) = readsAt e first + readsAt e second :=
  List.countP_append

@[simp] theorem writesAt_append (e : Nat) (first second : List (Token × α)) :
    writesAt e (first ++ second) = writesAt e first + writesAt e second :=
  List.countP_append

@[simp] theorem readsAt_cons_read (e : Nat) (token : ReadToken) (value : α)
    (items : List (Token × α)) :
    readsAt e ((.read token, value) :: items) =
      readsAt e items + if token.timestamp = e then 1 else 0 := by
  simp [readsAt, List.countP_cons, Token.isReadAt]

@[simp] theorem readsAt_cons_write (e : Nat) (token : WriteToken) (value : α)
    (items : List (Token × α)) :
    readsAt e ((.write token, value) :: items) = readsAt e items := by
  simp [readsAt, Token.isReadAt]

@[simp] theorem writesAt_cons_read (e : Nat) (token : ReadToken) (value : α)
    (items : List (Token × α)) :
    writesAt e ((.read token, value) :: items) = writesAt e items := by
  simp [writesAt, Token.isWriteAt]

@[simp] theorem writesAt_cons_write (e : Nat) (token : WriteToken) (value : α)
    (items : List (Token × α)) :
    writesAt e ((.write token, value) :: items) =
      writesAt e items + if token.timestamp = e then 1 else 0 := by
  simp [writesAt, List.countP_cons, Token.isWriteAt]

theorem readsAt_perm {items items' : List (Token × α)} (perm : items.Perm items')
    (e : Nat) : readsAt e items = readsAt e items' :=
  perm.countP_eq _

theorem writesAt_perm {items items' : List (Token × α)} (perm : items.Perm items')
    (e : Nat) : writesAt e items = writesAt e items' :=
  perm.countP_eq _

theorem readsAt_pos {token : ReadToken} {value : α} {items : List (Token × α)}
    (mem : (.read token, value) ∈ items) : 0 < readsAt token.timestamp items :=
  List.countP_pos_iff.mpr ⟨_, mem, by simp [Token.isReadAt]⟩

theorem writesAt_pos {token : WriteToken} {value : α} {items : List (Token × α)}
    (mem : (.write token, value) ∈ items) : 0 < writesAt token.timestamp items :=
  List.countP_pos_iff.mpr ⟨_, mem, by simp [Token.isWriteAt]⟩

/-- A write of each timestamp after the source's last one, up to the number of writes asked
for. -/
theorem writesAt_issue (source : FifoSource) (requests : List (Access × α)) (e : Nat) :
    writesAt e (source.issue requests) =
      if source.state.lastTimestamp < e ∧
        e ≤ source.state.lastTimestamp + writeCount requests then 1 else 0 := by
  induction requests generalizing source with
  | nil => simp [FifoSource.issue, writeCount]
  | cons request requests ih =>
    obtain ⟨access, value⟩ := request
    cases access with
    | read =>
      have count : writeCount ((Access.read, value) :: requests) = writeCount requests := by
        simp [writeCount]
      rw [FifoSource.issue, writesAt_cons_read, ih, count]
      rfl
    | write =>
      have count : writeCount ((Access.write, value) :: requests) = writeCount requests + 1 := by
        simp [writeCount]
      rw [FifoSource.issue, writesAt_cons_write, ih, count]
      show (if source.state.lastTimestamp + 1 < e ∧
        e ≤ source.state.lastTimestamp + 1 + writeCount requests then 1 else 0) +
          (if source.state.lastTimestamp + 1 = e then 1 else 0) = _
      split_ifs <;> omega

/-- The reads are of the timestamps from the source's last one to the last write asked for. -/
theorem issue_read_within {source : FifoSource} {requests : List (Access × α)} {token : ReadToken}
    {value : α} (mem : (.read token, value) ∈ source.issue requests) :
    source.state.lastTimestamp ≤ token.timestamp ∧
      token.timestamp ≤ source.state.lastTimestamp + writeCount requests := by
  induction requests generalizing source with
  | nil => simp [FifoSource.issue] at mem
  | cons request requests ih =>
    obtain ⟨access, value'⟩ := request
    cases access with
    | read =>
      simp only [FifoSource.issue, List.mem_cons, Prod.mk.injEq, Token.read.injEq] at mem
      rcases mem with ⟨rfl, -⟩ | later
      · simp [FifoSource.enterRead]
      · have within := ih later
        simp only [FifoSource.enterRead, writeCount, List.countP_cons] at within ⊢
        omega
    | write =>
      simp only [FifoSource.issue, List.mem_cons, Prod.mk.injEq, reduceCtorEq, false_and,
        false_or] at mem
      have within := ih mem
      simp only [FifoSource.enterWrite, writeCount, List.countP_cons] at within ⊢
      simp only [beq_self_eq_true, if_true]
      omega

/-- Each write counts the reads of the timestamp before its own, with those the source had
handed out already when it is the next write. -/
theorem issue_precedingReads {source : FifoSource} {requests : List (Access × α)}
    {token : WriteToken} {value : α} (mem : (.write token, value) ∈ source.issue requests) :
    token.numPrecedingReads =
      (if token.timestamp = source.state.lastTimestamp + 1 then source.state.numReads else 0) +
        readsAt (token.timestamp - 1) (source.issue requests) := by
  have later : source.state.lastTimestamp < token.timestamp := by
    have count := writesAt_pos mem
    rw [writesAt_issue] at count
    split_ifs at count with within
    · exact within.1
    · omega
  induction requests generalizing source with
  | nil => simp [FifoSource.issue] at mem
  | cons request requests ih =>
    obtain ⟨access, value'⟩ := request
    cases access with
    | read =>
      simp only [FifoSource.issue, List.mem_cons, Prod.mk.injEq, reduceCtorEq, false_and,
        false_or] at mem
      -- the read is counted by the write after it, and by no other
      rw [FifoSource.issue, readsAt_cons_read, ih mem later]
      show (if token.timestamp = source.state.lastTimestamp + 1 then source.state.numReads + 1
        else 0) + readsAt (token.timestamp - 1) (source.enterRead.2.issue requests) =
          (if token.timestamp = source.state.lastTimestamp + 1 then source.state.numReads else 0) +
            (readsAt (token.timestamp - 1) (source.enterRead.2.issue requests) +
              if source.state.lastTimestamp = token.timestamp - 1 then 1 else 0)
      split_ifs <;> omega
    | write =>
      simp only [FifoSource.issue, List.mem_cons, Prod.mk.injEq, Token.write.injEq] at mem
      rw [FifoSource.issue, readsAt_cons_write]
      rcases mem with ⟨rfl, -⟩ | later'
      · -- the next write: no read of the source's last timestamp comes after it
        have none : readsAt source.state.lastTimestamp
            (source.enterWrite.2.issue requests) = 0 := by
          refine List.countP_eq_zero.mpr fun item mem => ?_
          obtain ⟨token', value'⟩ := item
          cases token' with
          | read read =>
            have within := issue_read_within mem
            simp only [FifoSource.enterWrite] at within
            simp only [Token.isReadAt, beq_iff_eq]
            omega
          | write write => simp [Token.isReadAt]
        show source.state.numReads =
          (if source.state.lastTimestamp + 1 = source.state.lastTimestamp + 1 then
            source.state.numReads else 0) +
            readsAt (source.state.lastTimestamp + 1 - 1) (source.enterWrite.2.issue requests)
        rw [if_pos rfl, Nat.add_sub_cancel, none, Nat.add_zero]
      · have later'' : source.enterWrite.2.state.lastTimestamp < token.timestamp := by
          have count := writesAt_pos later'
          rw [writesAt_issue] at count
          split_ifs at count with within
          · exact within.1
          · omega
        rw [ih later' later'']
        show (if token.timestamp = source.state.lastTimestamp + 1 + 1 then 0 else 0) +
          readsAt (token.timestamp - 1) (source.enterWrite.2.issue requests) =
            (if token.timestamp = source.state.lastTimestamp + 1 then source.state.numReads
              else 0) + readsAt (token.timestamp - 1) (source.enterWrite.2.issue requests)
        have notNext : token.timestamp ≠ source.state.lastTimestamp + 1 := by
          simp only [FifoSource.enterWrite] at later''
          omega
        rw [if_neg notNext, ite_self]

/-- What the tokens of a source that starts afresh, with this many writes, are like. -/
structure Issued (writes : Nat) (items : List (Token × α)) : Prop where
  writesAt_eq : ∀ e, writesAt e items = if 0 < e ∧ e ≤ writes then 1 else 0
  read_le : ∀ token value, (.read token, value) ∈ items → token.timestamp ≤ writes
  precedingReads : ∀ token value, (.write token, value) ∈ items →
    token.numPrecedingReads = readsAt (token.timestamp - 1) items

theorem issued_issue (requests : List (Access × α)) :
    Issued (writeCount requests) (FifoSource.init.issue requests) where
  writesAt_eq e := by
    rw [writesAt_issue, show FifoSource.init.state.lastTimestamp = 0 from rfl, Nat.zero_add]
  read_le _ _ mem := by simpa [FifoSource.init] using (issue_read_within mem).2
  precedingReads _ _ mem := by
    have preceding := issue_precedingReads mem
    rw [show FifoSource.init.state.numReads = 0 from rfl, ite_self, Nat.zero_add] at preceding
    exact preceding

end Issue

/-! ## A sink with nobody in line

When every object is pulsed as it gets in line, the queues of the sink stay empty, and getting in
line and ending are the updates of the two states. -/

section Idle

variable {sink : FifoSink}

theorem internalPump_idle (reads : sink.readQueue = []) (writes : sink.writeQueue = []) :
    sink.internalPump = some sink := by
  simp [FifoSink.internalPump, FifoSink.pumpRounds, FifoSink.pumpReads, FifoSink.pumpWrite,
    reads, writes]

/-- A read of the last write's timestamp, with no write going, is pulsed as it gets in line. -/
theorem beginRead_idle (reads : sink.readQueue = []) (writes : sink.writeQueue = []) (id : Nat)
    {token : ReadToken} (finished : token.timestamp = sink.finishedState.lastTimestamp)
    (popped : sink.poppedState.lastTimestamp = token.timestamp) :
    sink.beginRead id token = some { sink with
      poppedState := { sink.poppedState with numReads := sink.poppedState.numReads + 1 },
      pulsed := sink.pulsed ++ [id] } := by
  simp [FifoSink.beginRead, FifoSink.internalPump, FifoSink.pumpRounds, FifoSink.pumpReads,
    FifoSink.pumpWrite, FifoState.advanceByRead, reads, writes, finished, popped]

/-- The next write, once every read before it has finished, is pulsed as it gets in line. -/
theorem beginWrite_idle (reads : sink.readQueue = []) (writes : sink.writeQueue = []) (id : Nat)
    {token : WriteToken}
    (finished : token.timestamp = sink.finishedState.lastTimestamp + 1 ∧
      token.numPrecedingReads = sink.finishedState.numReads)
    (popped : sink.poppedState.lastTimestamp + 1 = token.timestamp ∧
      sink.poppedState.numReads = token.numPrecedingReads) :
    sink.beginWrite id token = some { sink with
      poppedState := ⟨token.timestamp, 0⟩, pulsed := sink.pulsed ++ [id] } := by
  simp [FifoSink.beginWrite, FifoSink.internalPump, FifoSink.pumpRounds, FifoSink.pumpReads,
    FifoSink.pumpWrite, FifoState.advanceByWrite, reads, writes, finished, popped]

/-- A pulsed read ends by finishing its read. -/
theorem endRead_idle (reads : sink.readQueue = []) (writes : sink.writeQueue = []) {id : Nat}
    (pulsed : id ∈ sink.pulsed) {token : ReadToken}
    (popped : sink.poppedState.lastTimestamp = token.timestamp ∧
      sink.finishedState.numReads ≤ sink.poppedState.numReads)
    (finished : sink.finishedState.lastTimestamp = token.timestamp) :
    sink.endRead id token = some { sink with
      finishedState := { sink.finishedState with numReads := sink.finishedState.numReads + 1 } } := by
  simp only [FifoSink.endRead, pulsed, if_true, FifoSink.internalFinishAReader,
    FifoSink.finishAReader, popped, and_self, FifoState.advanceByRead, finished, Option.map_some,
    Option.bind_some]
  exact internalPump_idle reads writes

/-- A pulsed write ends by finishing its write. -/
theorem endWrite_idle (reads : sink.readQueue = []) (writes : sink.writeQueue = []) {id : Nat}
    (pulsed : id ∈ sink.pulsed) {token : WriteToken}
    (popped : sink.poppedState.lastTimestamp = token.timestamp ∧ sink.poppedState.numReads = 0)
    (finished : sink.finishedState.lastTimestamp + 1 = token.timestamp ∧
      sink.finishedState.numReads = token.numPrecedingReads) :
    sink.endWrite id token = some { sink with finishedState := ⟨token.timestamp, 0⟩ } := by
  simp only [FifoSink.endWrite, pulsed, if_true, FifoSink.internalFinishAWriter,
    FifoSink.finishAWriter, popped, and_self, FifoState.advanceByWrite, finished, Option.map_some,
    Option.bind_some]
  exact internalPump_idle reads writes

end Idle

end Concurrency
end RethinkDB
