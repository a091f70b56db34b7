import RethinkDB.Concurrency.FifoEnforcer

/-!
# The FIFO enforcer queue

`fifo_enforcer_queue_t` (`concurrency/fifo_enforcer_queue.tcc`) takes the same tokens as a
sink, but it orders values in a queue instead of blocking the coroutines that carry them.  Reads
wait in a `std::multimap` by timestamp and writes in a `std::map` by timestamp, with the number
of reads that must finish before them.  `produce_next_value` hands out a read of the last write's
timestamp, or else the next write once all of its reads have finished; `control` says whether it
can, and `consider_changing_available` sets it after every change.

The two maps are lists of their pairs.  A `find` on a multimap takes the first of the equal keys,
which is the first inserted, and the lists keep the order of insertion; where the order of the
keys matters to nothing the lists do not keep it.  A failed `rassert` and the `crash` of
`produce_next_value` are `none`.  The perfmon counters are left out.
-/

namespace RethinkDB
namespace Concurrency

section Extract

variable {β : Type}

/-- The first element that passes the test, and the list without it: `find` and then `erase`. -/
def extractFirst (p : β → Bool) : List β → Option (β × List β)
  | [] => none
  | x :: xs => if p x then some (x, xs) else (extractFirst p xs).map fun (y, ys) => (y, x :: ys)

theorem extractFirst_eq_none {p : β → Bool} {l : List β} :
    extractFirst p l = none ↔ l.any p = false := by
  induction l with
  | nil => simp [extractFirst]
  | cons x xs ih => cases h : p x <;> simp [extractFirst, h, ih]

theorem extractFirst_spec {p : β → Bool} {l : List β} {y : β} {ys : List β}
    (extracted : extractFirst p l = some (y, ys)) : p y = true ∧ l.Perm (y :: ys) := by
  induction l generalizing ys with
  | nil => simp [extractFirst] at extracted
  | cons x xs ih =>
    by_cases h : p x
    · simp only [extractFirst, h, if_true, Option.some.injEq, Prod.mk.injEq] at extracted
      obtain ⟨rfl, rfl⟩ := extracted
      exact ⟨h, List.Perm.refl _⟩
    · simp only [extractFirst, h, Bool.false_eq_true, if_false, Option.map_eq_some_iff,
        Prod.exists, Prod.mk.injEq] at extracted
      obtain ⟨y', rest, found, rfl, rfl⟩ := extracted
      obtain ⟨passes, perm⟩ := ih found
      exact ⟨passes, (perm.cons x).trans (List.Perm.swap y' x rest)⟩

/-- `extractFirst` takes what `find?` finds. -/
theorem find?_of_extractFirst {p : β → Bool} {l : List β} {y : β} {ys : List β}
    (extracted : extractFirst p l = some (y, ys)) : l.find? p = some y := by
  induction l generalizing ys with
  | nil => simp [extractFirst] at extracted
  | cons x xs ih =>
    by_cases h : p x
    · simp only [extractFirst, h, if_true, Option.some.injEq, Prod.mk.injEq] at extracted
      obtain ⟨rfl, -⟩ := extracted
      simp [h]
    · simp only [extractFirst, h, Bool.false_eq_true, if_false, Option.map_eq_some_iff,
        Prod.exists, Prod.mk.injEq] at extracted
      obtain ⟨y', rest, found, rfl, -⟩ := extracted
      simp [h, ih found]

end Extract

/-- `fifo_enforcer_queue_t<T>`: `read_queue`, `write_queue`, `state` and `control`. -/
structure FifoQueue (α : Type) where
  readQueue : List (Nat × α)
  writeQueue : List (Nat × Nat × α)
  state : FifoState
  control : Bool

section Queue

variable {α : Type}

/-- `fifo_enforcer_queue_t()`. -/
def FifoQueue.init : FifoQueue α := ⟨[], [], ⟨0, 0⟩, false⟩

/-- What `consider_changing_available` sets: whether there is a read of the last timestamp, or
else the next write is in and as many reads have finished as it expects. -/
def FifoQueue.available (queue : FifoQueue α) : Bool :=
  if queue.readQueue.any (·.1 == queue.state.lastTimestamp) then true
  else
    match queue.writeQueue.find? (·.1 == queue.state.lastTimestamp + 1) with
    | some (_, expectedNumReads, _) => expectedNumReads == queue.state.numReads
    | none => false

/-- `consider_changing_available`. -/
def FifoQueue.considerChangingAvailable (queue : FifoQueue α) : FifoQueue α :=
  { queue with control := queue.available }

/-- `push(fifo_enforcer_read_token_t, const T &)`. -/
def FifoQueue.pushRead (queue : FifoQueue α) (token : ReadToken) (t : α) : FifoQueue α :=
  { queue with readQueue := queue.readQueue ++ [(token.timestamp, t)] }.considerChangingAvailable

/-- `push(fifo_enforcer_write_token_t, const T &)`; `std::map::insert` keeps the value that is
there already. -/
def FifoQueue.pushWrite (queue : FifoQueue α) (token : WriteToken) (t : α) : FifoQueue α :=
  { queue with writeQueue :=
      if queue.writeQueue.any (·.1 == token.timestamp) then queue.writeQueue
      else queue.writeQueue ++ [(token.timestamp, token.numPrecedingReads, t)] }
    |>.considerChangingAvailable

/-- `finish_read`. -/
def FifoQueue.finishRead (queue : FifoQueue α) (readToken : ReadToken) :
    Option (FifoQueue α) :=
  if queue.state.lastTimestamp = readToken.timestamp then
    some { queue with
      state := { queue.state with numReads := queue.state.numReads + 1 } }.considerChangingAvailable
  else none

/-- `finish_write`. -/
def FifoQueue.finishWrite (queue : FifoQueue α) (writeToken : WriteToken) :
    Option (FifoQueue α) :=
  if queue.state.lastTimestamp + 1 = writeToken.timestamp ∧
      queue.state.numReads = writeToken.numPrecedingReads then
    some { queue with state := ⟨writeToken.timestamp, 0⟩ }.considerChangingAvailable
  else none

/-- `produce_next_value`: a read of the last timestamp, or else the next write when as many
reads have finished as it expects. -/
def FifoQueue.produceNextValue (queue : FifoQueue α) : Option (α × FifoQueue α) :=
  match extractFirst (·.1 == queue.state.lastTimestamp) queue.readQueue with
  | some ((_, res), readQueue) => some (res, { queue with readQueue }.considerChangingAvailable)
  | none =>
    match extractFirst (·.1 == queue.state.lastTimestamp + 1) queue.writeQueue with
    | some ((_, expectedNumReads, res), writeQueue) =>
      if ¬queue.state.numReads ≤ expectedNumReads then none
      else if queue.state.numReads = expectedNumReads then
        some (res, { queue with writeQueue }.considerChangingAvailable)
      else none
    | none => none

end Queue

/-! ## What the queue can hand out -/

section Available

variable {α : Type} {queue : FifoQueue α}

@[simp] theorem considerChangingAvailable_readQueue :
    queue.considerChangingAvailable.readQueue = queue.readQueue := rfl

@[simp] theorem considerChangingAvailable_writeQueue :
    queue.considerChangingAvailable.writeQueue = queue.writeQueue := rfl

@[simp] theorem considerChangingAvailable_state :
    queue.considerChangingAvailable.state = queue.state := rfl

@[simp] theorem considerChangingAvailable_control :
    queue.considerChangingAvailable.control = queue.available := rfl

/-- `consider_changing_available` reads nothing that it sets. -/
@[simp] theorem available_considerChangingAvailable :
    queue.considerChangingAvailable.available = queue.available := rfl

/-- A read of the last timestamp is there to hand out. -/
theorem available_of_read {key : Nat} {res : α} (mem : (key, res) ∈ queue.readQueue)
    (last : key = queue.state.lastTimestamp) : queue.available = true := by
  have found : queue.readQueue.any (·.1 == queue.state.lastTimestamp) = true :=
    List.any_eq_true.mpr ⟨_, mem, by simp [last]⟩
  simp [FifoQueue.available, found]

/-- The next write is there to hand out when every entry of its timestamp expects as many reads
as have finished. -/
theorem available_of_write {key expected : Nat} {res : α}
    (mem : (key, expected, res) ∈ queue.writeQueue) (next : key = queue.state.lastTimestamp + 1)
    (expects : ∀ x ∈ queue.writeQueue, x.1 = queue.state.lastTimestamp + 1 →
      x.2.1 = queue.state.numReads) :
    queue.available = true := by
  have some : (queue.writeQueue.find? (·.1 == queue.state.lastTimestamp + 1)).isSome :=
    List.find?_isSome.mpr ⟨(key, expected, res), mem, by simp [next]⟩
  obtain ⟨⟨key', expected', res'⟩, found⟩ := Option.isSome_iff_exists.mp some
  have foundKey : key' = queue.state.lastTimestamp + 1 := by simpa using List.find?_some found
  have foundExpects := expects _ (List.mem_of_find?_eq_some found) foundKey
  unfold FifoQueue.available
  split
  · rfl
  · rw [found]
    simpa using foundExpects

/-- `control` says exactly whether `produce_next_value` hands out a value: the checks of
`consider_changing_available` and of `produce_next_value` agree, and where they fail
`produce_next_value` reaches its `crash`. -/
theorem produceNextValue_isSome (queue : FifoQueue α) :
    queue.produceNextValue.isSome = queue.available := by
  unfold FifoQueue.produceNextValue FifoQueue.available
  split
  · next extracted =>
    have found := (extractFirst_spec extracted).1
    rw [if_pos (List.any_eq_true.mpr ⟨_, (extractFirst_spec extracted).2.mem_iff.mpr
      List.mem_cons_self, found⟩)]
    rfl
  · next extracted =>
    rw [if_neg (by rw [extractFirst_eq_none.mp extracted]; exact Bool.false_ne_true)]
    split
    · next key expected res write extracted' =>
      rw [find?_of_extractFirst extracted']
      -- the `rassert` and the `crash` are reached exactly where the counts differ
      by_cases equal : queue.state.numReads = expected
      · simp [equal]
      · have differ : (expected == queue.state.numReads) = false :=
          beq_eq_false_iff_ne.mpr (Ne.symm equal)
        split_ifs <;> simp [differ]
    · next extracted' =>
      have absent := extractFirst_eq_none.mp extracted'
      rw [List.find?_eq_none.mpr (by simpa using absent)]
      rfl

/-- What `produce_next_value` hands out: a read of the last timestamp, or, when there is none,
a write of the next timestamp that expects as many reads as have finished. -/
theorem produceNextValue_spec {res : α} {queue' : FifoQueue α}
    (produced : queue.produceNextValue = some (res, queue')) :
    (∃ readQueue, queue.readQueue.Perm ((queue.state.lastTimestamp, res) :: readQueue) ∧
      queue' = { queue with readQueue }.considerChangingAvailable) ∨
    (queue.readQueue.any (·.1 == queue.state.lastTimestamp) = false ∧
      ∃ writeQueue, queue.writeQueue.Perm
        ((queue.state.lastTimestamp + 1, queue.state.numReads, res) :: writeQueue) ∧
      queue' = { queue with writeQueue }.considerChangingAvailable) := by
  unfold FifoQueue.produceNextValue at produced
  split at produced
  · next key res' readQueue extracted =>
    simp only [Option.some.injEq, Prod.mk.injEq] at produced
    obtain ⟨rfl, rfl⟩ := produced
    obtain ⟨last, perm⟩ := extractFirst_spec extracted
    simp only [beq_iff_eq] at last
    exact .inl ⟨readQueue, last ▸ perm, rfl⟩
  · next extracted =>
    split at produced
    · next key expected res' writeQueue extracted' =>
      split_ifs at produced with above equal
      simp only [Option.some.injEq, Prod.mk.injEq] at produced
      obtain ⟨rfl, rfl⟩ := produced
      obtain ⟨next, perm⟩ := extractFirst_spec extracted'
      simp only [beq_iff_eq] at next
      exact .inr ⟨extractFirst_eq_none.mp extracted, writeQueue, next ▸ equal ▸ perm, rfl⟩
    · simp at produced

end Available

/-! ## Using the queue

The unit test pushes the tokens of a source into a queue, produces values while `control` says
it may, and passes each produced value through a sink, with an `exit_read_t` or `exit_write_t`
that ends when the value is finished.  A client here does the same in any interleaving: it
pushes the tokens in any order, produces when the queue is available, and finishes any value it
produced.  Each value goes with its token, as the unit test's values are their tokens. -/

/-- What a client does next. -/
inductive ClientEvent where
  /-- Push the `i`-th of the tokens not pushed yet. -/
  | push (i : Nat)
  /-- `produce_next_value`, and the exit object of the value in the sink. -/
  | produce
  /-- `finish_read` or `finish_write` of the `i`-th of the values produced and not finished,
  and the end of its exit object. -/
  | finish (i : Nat)
  deriving DecidableEq, Repr

/-- The queue, the sink, and the client's own record: the tokens not pushed, the values
produced and not finished with the numbers of their exit objects, and all values produced and
all finished. -/
structure Client (α : Type) where
  queue : FifoQueue (Token × α)
  sink : FifoSink
  pending : List (Token × α)
  running : List (Nat × Token × α)
  produced : List (Token × α)
  finished : List (Token × α)

section Client

variable {α : Type}

/-- The start of a run: the tokens of a source for the requests, a new queue and a new sink. -/
def Client.start (requests : List (Access × α)) : Client α :=
  ⟨FifoQueue.init, FifoSink.init, FifoSource.init.issue requests, [], [], []⟩

/-- One event; `none` if an assertion fails or the queue crashes, or if there is no such token or
value. -/
def Client.step (client : Client α) : ClientEvent → Option (Client α)
  | .push i =>
    match client.pending[i]? with
    | some (.read token, value) =>
      some { client with
        queue := client.queue.pushRead token (.read token, value)
        pending := client.pending.eraseIdx i }
    | some (.write token, value) =>
      some { client with
        queue := client.queue.pushWrite token (.write token, value)
        pending := client.pending.eraseIdx i }
    | none => none
  | .produce => do
    let (item, queue) ← client.queue.produceNextValue
    let id := client.produced.length
    let sink ← match item.1 with
      | .read token => client.sink.beginRead id token
      | .write token => client.sink.beginWrite id token
    some { client with
      queue, sink
      running := client.running ++ [(id, item)]
      produced := client.produced ++ [item] }
  | .finish i =>
    match client.running[i]? with
    | some (id, .read token, value) => do
      let queue ← client.queue.finishRead token
      let sink ← client.sink.endRead id token
      some { client with
        queue, sink
        running := client.running.eraseIdx i
        finished := client.finished ++ [(.read token, value)] }
    | some (id, .write token, value) => do
      let queue ← client.queue.finishWrite token
      let sink ← client.sink.endWrite id token
      some { client with
        queue, sink
        running := client.running.eraseIdx i
        finished := client.finished ++ [(.write token, value)] }
    | none => none

/-- What a client may do: push a token it has, produce while the queue is available, and finish
a value it produced. -/
def Client.Allowed (client : Client α) : ClientEvent → Prop
  | .push i => i < client.pending.length
  | .produce => client.queue.control = true
  | .finish i => i < client.running.length

/-- The states a client reaches from the start by what it may do. -/
inductive Client.Reachable (requests : List (Access × α)) : Client α → Prop
  | start : Client.Reachable requests (Client.start requests)
  | step {client client' : Client α} {e : ClientEvent} :
    Client.Reachable requests client → client.Allowed e → client.step e = some client' →
      Client.Reachable requests client'

end Client

/-! ## Where a run stands

Every token the source issued is in one place: not pushed, in the queue, produced and running, or
finished.  The queue's `state` has counted what has finished, as the sink's `finished_state`
has; the reads that run are of the last timestamp, or else the next write runs alone; and the
sink has nobody waiting, so each exit object was pulsed when it got in line. -/

section Invariant

variable {α : Type}

/-- The values in the queue, with their tokens. -/
def FifoQueue.items (queue : FifoQueue (Token × α)) : List (Token × α) :=
  queue.readQueue.map (·.2) ++ queue.writeQueue.map (·.2.2)

/-- Reads of the last timestamp are running, and the sink has popped them. -/
def Client.ReadsRunning (client : Client α) : Prop :=
  (∀ r ∈ client.running, r.2.1.isReadAt client.queue.state.lastTimestamp = true) ∧
    client.sink.poppedState =
      ⟨client.queue.state.lastTimestamp, client.queue.state.numReads + client.running.length⟩

/-- The next write is running alone, every read before it has finished, and the sink has popped
it. -/
def Client.WriteRunning (issued : List (Token × α)) (client : Client α) : Prop :=
  ∃ id token value, client.running = [(id, .write token, value)] ∧
    token.timestamp = client.queue.state.lastTimestamp + 1 ∧
    readsAt client.queue.state.lastTimestamp client.finished =
      readsAt client.queue.state.lastTimestamp issued ∧
    client.sink.poppedState = ⟨token.timestamp, 0⟩

/-- Where a run stands, for the tokens the source issued. -/
structure Client.Inv (issued : List (Token × α)) (client : Client α) : Prop where
  control : client.queue.control = client.queue.available
  parts : (client.pending ++ client.queue.items ++ client.running.map (·.2) ++
    client.finished).Perm issued
  produced : client.produced.Perm (client.running.map (·.2) ++ client.finished)
  readKeys : ∀ x ∈ client.queue.readQueue, x.2.1 = .read ⟨x.1⟩
  writeKeys : ∀ x ∈ client.queue.writeQueue, x.2.2.1 = .write ⟨x.1, x.2.1⟩
  finishedWrites : ∀ e, writesAt e client.finished =
    if 0 < e ∧ e ≤ client.queue.state.lastTimestamp then 1 else 0
  finishedReads : ∀ token value, (.read token, value) ∈ client.finished →
    token.timestamp ≤ client.queue.state.lastTimestamp
  pastReads : ∀ e < client.queue.state.lastTimestamp,
    readsAt e client.finished = readsAt e issued
  numReads : client.queue.state.numReads =
    readsAt client.queue.state.lastTimestamp client.finished
  running : client.ReadsRunning ∨ client.WriteRunning issued
  readsIdle : client.sink.readQueue = []
  writesIdle : client.sink.writeQueue = []
  finishedState : client.sink.finishedState = client.queue.state
  pulsed : ∀ r ∈ client.running, r.1 ∈ client.sink.pulsed

theorem inv_start (requests : List (Access × α)) :
    (Client.start requests).Inv (FifoSource.init.issue requests) where
  control := rfl
  parts := by simp [Client.start, FifoQueue.init, FifoQueue.items]
  produced := by simp [Client.start]
  readKeys := by simp [Client.start, FifoQueue.init]
  writeKeys := by simp [Client.start, FifoQueue.init]
  finishedWrites e := by
    simp [Client.start, FifoQueue.init]
    omega
  finishedReads := by simp [Client.start]
  pastReads := by simp [Client.start, FifoQueue.init]
  numReads := rfl
  running := .inl ⟨by simp [Client.start], rfl⟩
  readsIdle := rfl
  writesIdle := rfl
  finishedState := rfl
  pulsed := by simp [Client.start]

/-! ### Moving a token from one place to the next -/

section Moves

variable {β : Type} {x : β} {pending rest items items' running running' finished : List β}

theorem perm_parts_push (pendingPerm : (x :: rest).Perm pending)
    (itemsPerm : items'.Perm (x :: items)) :
    (rest ++ items' ++ running ++ finished).Perm (pending ++ items ++ running ++ finished) := by
  rw [← Multiset.coe_eq_coe] at pendingPerm itemsPerm ⊢
  simp only [← Multiset.coe_add, ← Multiset.cons_coe,
    ← Multiset.singleton_add] at pendingPerm itemsPerm ⊢
  rw [← pendingPerm, itemsPerm]
  abel

theorem perm_parts_produce (itemsPerm : items.Perm (x :: items')) :
    (pending ++ items' ++ (running ++ [x]) ++ finished).Perm
      (pending ++ items ++ running ++ finished) := by
  rw [← Multiset.coe_eq_coe] at itemsPerm ⊢
  simp only [← Multiset.coe_add, ← Multiset.cons_coe, ← Multiset.singleton_add,
    Multiset.coe_nil, add_zero] at itemsPerm ⊢
  rw [itemsPerm]
  abel

theorem perm_parts_finish (runningPerm : (x :: running').Perm running) :
    (pending ++ items ++ running' ++ (finished ++ [x])).Perm
      (pending ++ items ++ running ++ finished) := by
  rw [← Multiset.coe_eq_coe] at runningPerm ⊢
  simp only [← Multiset.coe_add, ← Multiset.cons_coe, ← Multiset.singleton_add,
    Multiset.coe_nil, add_zero] at runningPerm ⊢
  rw [← runningPerm]
  abel

theorem perm_produced (producedPerm : items.Perm (running ++ finished)) :
    (items ++ [x]).Perm (running ++ [x] ++ finished) := by
  rw [← Multiset.coe_eq_coe] at producedPerm ⊢
  simp only [← Multiset.coe_add, ← Multiset.cons_coe, ← Multiset.singleton_add,
    Multiset.coe_nil, add_zero] at producedPerm ⊢
  rw [producedPerm]
  abel

theorem perm_finished (producedPerm : items.Perm (running ++ finished))
    (runningPerm : (x :: running').Perm running) :
    items.Perm (running' ++ (finished ++ [x])) := by
  rw [← Multiset.coe_eq_coe] at producedPerm runningPerm ⊢
  simp only [← Multiset.coe_add, ← Multiset.cons_coe, ← Multiset.singleton_add,
    Multiset.coe_nil, add_zero] at producedPerm runningPerm ⊢
  rw [producedPerm, ← runningPerm]
  abel

end Moves

/-! ### The values in the queue -/

section Items

variable {queue : FifoQueue (Token × α)}

theorem mem_items {x : Token × α} :
    x ∈ queue.items ↔ (∃ key, (key, x) ∈ queue.readQueue) ∨
      ∃ key expected, (key, expected, x) ∈ queue.writeQueue := by
  simp [FifoQueue.items]

theorem items_pushRead (token : ReadToken) (x : Token × α) :
    (queue.pushRead token x).items.Perm (x :: queue.items) := by
  simp [FifoQueue.items, FifoQueue.pushRead, List.perm_middle]

theorem items_pushWrite {token : WriteToken} (fresh : queue.writeQueue.any (·.1 == token.timestamp) = false)
    (x : Token × α) : (queue.pushWrite token x).items.Perm (x :: queue.items) := by
  simp only [FifoQueue.items, FifoQueue.pushWrite, fresh, Bool.false_eq_true, if_false,
    considerChangingAvailable_readQueue, considerChangingAvailable_writeQueue, List.map_append,
    List.map_cons, List.map_nil, ← List.append_assoc]
  exact List.perm_append_singleton _ _

theorem items_of_readQueue {key : Nat} {x : Token × α} {readQueue : List (Nat × Token × α)}
    (perm : queue.readQueue.Perm ((key, x) :: readQueue)) :
    queue.items.Perm (x :: { queue with readQueue }.considerChangingAvailable.items) := by
  simpa [FifoQueue.items] using perm.map (·.2) |>.append_right _

theorem items_of_writeQueue {key expected : Nat} {x : Token × α}
    {writeQueue : List (Nat × Nat × Token × α)}
    (perm : queue.writeQueue.Perm ((key, expected, x) :: writeQueue)) :
    queue.items.Perm (x :: { queue with writeQueue }.considerChangingAvailable.items) := by
  have mapped := (perm.map (·.2.2)).append_left (queue.readQueue.map (·.2))
  simp only [List.map_cons] at mapped
  exact mapped.trans List.perm_middle

end Items

variable {issued : List (Token × α)} {client : Client α}

/-- The reads of a timestamp, counted over the places of their tokens. -/
theorem Client.Inv.readsAt_parts (inv : client.Inv issued) (e : Nat) :
    readsAt e client.pending + readsAt e client.queue.items +
      readsAt e (client.running.map (·.2)) + readsAt e client.finished = readsAt e issued := by
  rw [← readsAt_perm inv.parts]
  simp only [readsAt_append]

/-- The writes of a timestamp, counted over the places of their tokens. -/
theorem Client.Inv.writesAt_parts (inv : client.Inv issued) (e : Nat) :
    writesAt e client.pending + writesAt e client.queue.items +
      writesAt e (client.running.map (·.2)) + writesAt e client.finished = writesAt e issued := by
  rw [← writesAt_perm inv.parts]
  simp only [writesAt_append]

theorem Client.Inv.issued_of_items (inv : client.Inv issued) {x : Token × α}
    (mem : x ∈ client.queue.items) : x ∈ issued :=
  inv.parts.subset (by simp [mem])

theorem Client.Inv.issued_of_running (inv : client.Inv issued) {r : Nat × Token × α}
    (mem : r ∈ client.running) : r.2 ∈ issued :=
  inv.parts.subset (by simp [List.mem_map_of_mem mem])

/-- A read token in the queue waits in the read queue under its timestamp. -/
theorem Client.Inv.readQueue_of_items (inv : client.Inv issued) {token : ReadToken} {value : α}
    (mem : (.read token, value) ∈ client.queue.items) :
    (token.timestamp, (Token.read token, value)) ∈ client.queue.readQueue := by
  rcases mem_items.mp mem with ⟨key, inRead⟩ | ⟨key, expected, inWrite⟩
  · have keyed : token = ⟨key⟩ := by simpa using inv.readKeys _ inRead
    subst keyed
    exact inRead
  · simpa using inv.writeKeys _ inWrite

/-- A write token in the queue waits in the write queue under its timestamp. -/
theorem Client.Inv.writeQueue_of_items (inv : client.Inv issued) {token : WriteToken}
    {value : α} (mem : (.write token, value) ∈ client.queue.items) :
    (token.timestamp, token.numPrecedingReads, (Token.write token, value)) ∈
      client.queue.writeQueue := by
  rcases mem_items.mp mem with ⟨key, inRead⟩ | ⟨key, expected, inWrite⟩
  · simpa using inv.readKeys _ inRead
  · have keyed : token = ⟨key, expected⟩ := by simpa using inv.writeKeys _ inWrite
    subst keyed
    exact inWrite

/-- A read of the last timestamp in the queue can be handed out. -/
theorem Client.Inv.available_of_queued_read (inv : client.Inv issued) {token : ReadToken} {value : α}
    (mem : (.read token, value) ∈ client.queue.items)
    (last : token.timestamp = client.queue.state.lastTimestamp) :
    client.queue.available = true :=
  available_of_read (inv.readQueue_of_items mem) last

end Invariant

/-! ## Each step keeps the invariant

Every step a client may take goes through, none of the assertions of the queue or of the sink
failing, and keeps the invariant. -/

section Steps

variable {α : Type} {issued : List (Token × α)} {writes : Nat} {client : Client α}

/-- Pushing a token moves it from the client into the queue.  A write's timestamp is in no
entry of the write queue yet, so `std::map::insert` inserts it. -/
theorem Client.Inv.push (inv : client.Inv issued) (issuedWell : Issued writes issued) {i : Nat}
    (lt : i < client.pending.length) :
    ∃ client', client.step (.push i) = some client' ∧ client'.Inv issued := by
  obtain ⟨⟨token, value⟩, entry⟩ : ∃ x, client.pending[i] = x := ⟨_, rfl⟩
  have pendingPerm := List.getElem_cons_eraseIdx_perm lt
  rw [entry] at pendingPerm
  cases token with
  | read token =>
    refine ⟨{ client with
      queue := client.queue.pushRead token (.read token, value)
      pending := client.pending.eraseIdx i }, ?_, ?_⟩
    · simp only [Client.step, List.getElem?_eq_getElem lt, entry]
    · exact { inv with
        control := rfl
        parts := (perm_parts_push pendingPerm (items_pushRead token _)).trans inv.parts
        readKeys := by
          intro x mem
          simp only [FifoQueue.pushRead, considerChangingAvailable_readQueue, List.mem_append,
            List.mem_singleton] at mem
          rcases mem with old | rfl
          · exact inv.readKeys x old
          · rfl }
  | write token =>
    -- a second write of the same timestamp would be counted twice
    have fresh : client.queue.writeQueue.any (·.1 == token.timestamp) = false := by
      refine List.any_eq_false.mpr fun entry mem same => ?_
      obtain ⟨key, expected, token', value'⟩ := entry
      have keyed : token' = .write ⟨key, expected⟩ := inv.writeKeys _ mem
      have sameKey : key = token.timestamp := by simpa using same
      subst keyed sameKey
      have inItems : 0 < writesAt token.timestamp client.queue.items := by
        have queued := writesAt_pos (mem_items.mpr (.inr ⟨_, expected, mem⟩))
        exact queued
      have inPending : 0 < writesAt token.timestamp client.pending :=
        writesAt_pos (pendingPerm.subset List.mem_cons_self)
      have count := inv.writesAt_parts token.timestamp
      have atMostOne := issuedWell.writesAt_eq token.timestamp
      split_ifs at atMostOne <;> omega
    refine ⟨{ client with
      queue := client.queue.pushWrite token (.write token, value)
      pending := client.pending.eraseIdx i }, ?_, ?_⟩
    · simp only [Client.step, List.getElem?_eq_getElem lt, entry]
    · exact { inv with
        control := rfl
        parts := (perm_parts_push pendingPerm (items_pushWrite fresh _)).trans inv.parts
        writeKeys := by
          intro x mem
          simp only [FifoQueue.pushWrite, fresh, Bool.false_eq_true, if_false,
            considerChangingAvailable_writeQueue, List.mem_append, List.mem_singleton] at mem
          rcases mem with old | rfl
          · exact inv.writeKeys x old
          · rfl }

/-- Producing hands out a read of the last timestamp, while reads run, or else the next write,
when nothing runs; either way the sink pulses its exit object as it gets in line. -/
theorem Client.Inv.produce (inv : client.Inv issued) (issuedWell : Issued writes issued)
    (available : client.queue.control = true) :
    ∃ client', client.step .produce = some client' ∧ client'.Inv issued := by
  obtain ⟨⟨item, queue'⟩, produced⟩ : ∃ result, client.queue.produceNextValue = some result :=
    Option.isSome_iff_exists.mp ((produceNextValue_isSome _).trans (inv.control ▸ available))
  rcases produceNextValue_spec produced with ⟨readQueue, perm, rfl⟩ |
    ⟨-, writeQueue, perm, rfl⟩
  · -- a read of the last timestamp
    obtain ⟨token, value⟩ := item
    have keyed : token = .read ⟨client.queue.state.lastTimestamp⟩ :=
      inv.readKeys (client.queue.state.lastTimestamp, token, value)
        (perm.symm.subset List.mem_cons_self)
    subst keyed
    have queued := (items_of_readQueue perm).symm.subset List.mem_cons_self
    -- no write runs, for it runs only once every read of the last timestamp has finished
    obtain ⟨allReads, popped⟩ : client.ReadsRunning := by
      refine inv.running.resolve_right fun writeRunning => ?_
      obtain ⟨_, _, _, _, _, allDone, _⟩ := writeRunning
      have count := inv.readsAt_parts client.queue.state.lastTimestamp
      have inItems := readsAt_pos queued
      simp only at inItems
      omega
    have begun := beginRead_idle inv.readsIdle inv.writesIdle client.produced.length
      (show (ReadToken.mk client.queue.state.lastTimestamp).timestamp =
        client.sink.finishedState.lastTimestamp by rw [inv.finishedState])
      (by rw [popped])
    refine ⟨_, by simp [Client.step, produced, begun]; rfl, ?_⟩
    exact {
      control := rfl
      parts := by
        rw [List.map_append, List.map_singleton]
        exact (perm_parts_produce (items_of_readQueue perm)).trans inv.parts
      produced := by
        rw [List.map_append, List.map_singleton]
        exact perm_produced inv.produced
      readKeys := fun x mem => inv.readKeys x (perm.symm.subset (List.mem_cons_of_mem _ mem))
      writeKeys := inv.writeKeys
      finishedWrites := inv.finishedWrites
      finishedReads := inv.finishedReads
      pastReads := inv.pastReads
      numReads := inv.numReads
      running := by
        refine .inl ⟨fun r mem => ?_, by rw [popped, List.length_append]; rfl⟩
        rcases List.mem_append.mp mem with old | new
        · exact allReads r old
        · rw [List.mem_singleton.mp new]
          simp [Token.isReadAt]
      readsIdle := inv.readsIdle
      writesIdle := inv.writesIdle
      finishedState := inv.finishedState
      pulsed := fun r mem => by
        rcases List.mem_append.mp mem with old | new
        · exact List.mem_append_left _ (inv.pulsed r old)
        · rw [List.mem_singleton.mp new]
          exact List.mem_append_right _ List.mem_cons_self }
  · -- the next write, which expects as many reads as have finished
    obtain ⟨token, value⟩ := item
    have keyed : token = .write ⟨client.queue.state.lastTimestamp + 1,
        client.queue.state.numReads⟩ :=
      inv.writeKeys (client.queue.state.lastTimestamp + 1, client.queue.state.numReads, token, value)
        (perm.symm.subset List.mem_cons_self)
    subst keyed
    have queued := (items_of_writeQueue perm).symm.subset List.mem_cons_self
    have expects : client.queue.state.numReads =
        readsAt client.queue.state.lastTimestamp issued := by
      simpa using issuedWell.precedingReads _ _ (inv.issued_of_items queued)
    -- so every read of the last timestamp has finished, and nothing runs
    have allDone := inv.numReads ▸ expects
    have idle : client.running = [] := by
      rcases inv.running with ⟨allReads, -⟩ | ⟨id, token, value, single, next, -, -⟩
      · refine List.eq_nil_iff_forall_not_mem.mpr fun r mem => ?_
        have running : 0 < readsAt client.queue.state.lastTimestamp
            (client.running.map (·.2)) :=
          List.countP_pos_iff.mpr ⟨r.2, List.mem_map_of_mem mem, allReads r mem⟩
        have count := inv.readsAt_parts client.queue.state.lastTimestamp
        omega
      · -- the running write and the queued one would be two of the same timestamp
        have inRunning : 0 < writesAt (client.queue.state.lastTimestamp + 1)
            (client.running.map (·.2)) := by
          rw [single]
          simp [next]
        have inItems := writesAt_pos queued
        have count := inv.writesAt_parts (client.queue.state.lastTimestamp + 1)
        have atMostOne := issuedWell.writesAt_eq (client.queue.state.lastTimestamp + 1)
        simp only at inItems
        split_ifs at atMostOne <;> omega
    have popped : client.sink.poppedState =
        ⟨client.queue.state.lastTimestamp, client.queue.state.numReads⟩ := by
      rcases inv.running with ⟨-, popped⟩ | ⟨_, _, _, single, -⟩
      · rw [popped, idle]
        rfl
      · simp [idle] at single
    have begun := beginWrite_idle inv.readsIdle inv.writesIdle client.produced.length
      (show (WriteToken.mk (client.queue.state.lastTimestamp + 1)
        client.queue.state.numReads).timestamp = client.sink.finishedState.lastTimestamp + 1 ∧
        client.queue.state.numReads = client.sink.finishedState.numReads by
          rw [inv.finishedState]
          exact ⟨rfl, rfl⟩)
      (by rw [popped]; exact ⟨rfl, rfl⟩)
    refine ⟨_, by simp [Client.step, produced, begun]; rfl, ?_⟩
    exact {
      control := rfl
      parts := by
        rw [List.map_append, List.map_singleton]
        exact (perm_parts_produce (items_of_writeQueue perm)).trans inv.parts
      produced := by
        rw [List.map_append, List.map_singleton]
        exact perm_produced inv.produced
      readKeys := inv.readKeys
      writeKeys := fun x mem => inv.writeKeys x (perm.symm.subset (List.mem_cons_of_mem _ mem))
      finishedWrites := inv.finishedWrites
      finishedReads := inv.finishedReads
      pastReads := inv.pastReads
      numReads := inv.numReads
      running := .inr ⟨_, _, value, by rw [idle]; rfl, rfl, allDone, rfl⟩
      readsIdle := inv.readsIdle
      writesIdle := inv.writesIdle
      finishedState := inv.finishedState
      pulsed := fun r mem => by
        rw [idle, List.nil_append, List.mem_singleton] at mem
        rw [mem]
        exact List.mem_append_right _ List.mem_cons_self }

/-- Finishing a value moves it from the running values to the finished ones.  A read is
counted as finished by the queue and by the sink alike, and the write sets the last timestamp
of both. -/
theorem Client.Inv.finish (inv : client.Inv issued) (issuedWell : Issued writes issued) {i : Nat}
    (lt : i < client.running.length) :
    ∃ client', client.step (.finish i) = some client' ∧ client'.Inv issued := by
  obtain ⟨⟨id, token, value⟩, entry⟩ : ∃ r, client.running[i] = r := ⟨_, rfl⟩
  have runningPerm := List.getElem_cons_eraseIdx_perm lt
  rw [entry] at runningPerm
  have mem : (id, token, value) ∈ client.running := runningPerm.subset List.mem_cons_self
  have mapped := runningPerm.map (·.2)
  rw [List.map_cons] at mapped
  have pulsedId := inv.pulsed _ mem
  rcases inv.running with ⟨allReads, popped⟩ | ⟨_, write, _, single, next, allDone, popped⟩
  · -- reads run, so this is a read of the last timestamp
    have isRead := allReads _ mem
    cases token with
    | write token => simp [Token.isReadAt] at isRead
    | read token =>
      have last : token.timestamp = client.queue.state.lastTimestamp := by
        simpa [Token.isReadAt] using isRead
      have finishedRead : client.queue.finishRead token = some ({ client.queue with
          state := { client.queue.state with numReads := client.queue.state.numReads + 1 } }
          |>.considerChangingAvailable) := by
        rw [FifoQueue.finishRead, if_pos last.symm]
      have ended := endRead_idle inv.readsIdle inv.writesIdle pulsedId
        (by rw [popped, inv.finishedState]; exact ⟨last.symm, by simp⟩)
        (by rw [inv.finishedState]; exact last.symm)
      refine ⟨_, by simp [Client.step, List.getElem?_eq_getElem lt, entry, finishedRead, ended]; rfl,
        ?_⟩
      exact {
        control := rfl
        parts := (perm_parts_finish mapped).trans inv.parts
        produced := perm_finished inv.produced mapped
        readKeys := inv.readKeys
        writeKeys := inv.writeKeys
        finishedWrites := fun e => by
          show writesAt e (client.finished ++ [(Token.read token, value)]) =
            if 0 < e ∧ e ≤ client.queue.state.lastTimestamp then 1 else 0
          rw [writesAt_append, writesAt_cons_read, writesAt_nil, Nat.add_zero, inv.finishedWrites e]
        finishedReads := fun token' value' finished => by
          show token'.timestamp ≤ client.queue.state.lastTimestamp
          rcases List.mem_append.mp finished with old | new
          · exact inv.finishedReads token' value' old
          · simp only [List.mem_singleton, Prod.mk.injEq, Token.read.injEq] at new
            rw [new.1, last]
        pastReads := fun e below => by
          have below : e < client.queue.state.lastTimestamp := below
          have other : token.timestamp ≠ e := by omega
          show readsAt e (client.finished ++ [(Token.read token, value)]) = _
          rw [readsAt_append, readsAt_cons_read, readsAt_nil, if_neg other, inv.pastReads e below,
            Nat.add_zero]
        numReads := by
          show client.queue.state.numReads + 1 = readsAt client.queue.state.lastTimestamp
            (client.finished ++ [(Token.read token, value)])
          rw [readsAt_append, readsAt_cons_read, readsAt_nil, if_pos last, inv.numReads]
        running := by
          refine .inl ⟨fun r kept => allReads r (List.mem_of_mem_eraseIdx kept), ?_⟩
          show client.sink.poppedState = ⟨client.queue.state.lastTimestamp,
            client.queue.state.numReads + 1 + (client.running.eraseIdx i).length⟩
          rw [popped, List.length_eraseIdx_of_lt lt]
          simp only [FifoState.mk.injEq, true_and]
          omega
        readsIdle := inv.readsIdle
        writesIdle := inv.writesIdle
        finishedState := by
          show { client.sink.finishedState with numReads := client.sink.finishedState.numReads + 1 } =
            { client.queue.state with numReads := client.queue.state.numReads + 1 }
          rw [inv.finishedState]
        pulsed := fun r kept => inv.pulsed r (List.mem_of_mem_eraseIdx kept) }
  · -- the write runs alone, and every read before it has finished
    have zero : i = 0 := by
      rw [single] at lt
      simpa using lt
    subst zero
    rw [single, List.mem_singleton, Prod.mk.injEq, Prod.mk.injEq] at mem
    obtain ⟨rfl, rfl, rfl⟩ := mem
    have mem : (id, Token.write write, value) ∈ client.running := by simp [single]
    have counted : write.numPrecedingReads = client.queue.state.numReads := by
      rw [issuedWell.precedingReads _ _ (inv.issued_of_running mem), next, Nat.add_sub_cancel,
        ← allDone, inv.numReads]
    have finishedWrite : client.queue.finishWrite write =
        some ({ client.queue with state := ⟨write.timestamp, 0⟩ }.considerChangingAvailable) := by
      rw [FifoQueue.finishWrite, if_pos ⟨next.symm, counted.symm⟩]
    have ended := endWrite_idle inv.readsIdle inv.writesIdle pulsedId
      (by rw [popped]; exact ⟨rfl, rfl⟩) (by rw [inv.finishedState]; exact ⟨next.symm, counted.symm⟩)
    refine ⟨_, by simp [Client.step, List.getElem?_eq_getElem lt, entry, finishedWrite, ended]; rfl,
      ?_⟩
    rw [List.eraseIdx_zero] at mapped
    have nothingLeft : client.running.tail = [] := by simp [single]
    exact {
      control := rfl
      parts := (perm_parts_finish mapped).trans inv.parts
      produced := perm_finished inv.produced mapped
      readKeys := inv.readKeys
      writeKeys := inv.writeKeys
      finishedWrites := fun e => by
        show writesAt e (client.finished ++ [(Token.write write, value)]) =
          if 0 < e ∧ e ≤ write.timestamp then 1 else 0
        rw [writesAt_append, writesAt_cons_write, writesAt_nil, Nat.zero_add, inv.finishedWrites e,
          next]
        split_ifs <;> omega
      finishedReads := fun token' value' finished => by
        show token'.timestamp ≤ write.timestamp
        rcases List.mem_append.mp finished with old | new
        · have before := inv.finishedReads token' value' old
          omega
        · simp at new
      pastReads := fun e below => by
        have below : e < write.timestamp := below
        show readsAt e (client.finished ++ [(Token.write write, value)]) = _
        rw [readsAt_append, readsAt_cons_write, readsAt_nil, Nat.add_zero]
        rcases Nat.lt_or_ge e client.queue.state.lastTimestamp with earlier | latest
        · exact inv.pastReads e earlier
        · rw [show e = client.queue.state.lastTimestamp by omega, allDone]
      numReads := by
        -- every finished read is of a timestamp before the write's
        show 0 = readsAt write.timestamp (client.finished ++ [(Token.write write, value)])
        rw [readsAt_append, readsAt_cons_write, readsAt_nil, Nat.add_zero]
        refine (List.countP_eq_zero.mpr fun item finished => ?_).symm
        obtain ⟨token', value'⟩ := item
        cases token' with
        | read token' =>
          have before := inv.finishedReads token' value' finished
          simp only [Token.isReadAt, beq_iff_eq]
          omega
        | write token' => simp [Token.isReadAt]
      running := .inl ⟨by simp [nothingLeft], by
        show client.sink.poppedState = ⟨write.timestamp, 0 + client.running.tail.length⟩
        rw [popped, nothingLeft]
        rfl⟩
      readsIdle := inv.readsIdle
      writesIdle := inv.writesIdle
      finishedState := rfl
      pulsed := by simp [nothingLeft] }

theorem Client.Inv.step (inv : client.Inv issued) (issuedWell : Issued writes issued)
    {e : ClientEvent} (allowed : client.Allowed e) :
    ∃ client', client.step e = some client' ∧ client'.Inv issued := by
  cases e with
  | push i => exact inv.push issuedWell allowed
  | produce => exact inv.produce issuedWell allowed
  | finish i => exact inv.finish issuedWell allowed

/-! ## A drained queue

With every token pushed and nothing running, a queue that still holds a value can hand one out:
a read of the last timestamp if there is one, and else the next write, all of whose reads have
finished.  So when `control` says nothing is available, every value has been produced. -/

/-- A queue that holds a value, with every token pushed and nothing running, is available. -/
theorem Client.Inv.available_of_left (inv : client.Inv issued)
    (issuedWell : Issued writes issued) (pushed : client.pending = [])
    (idle : client.running = []) {x : Token × α} (left : x ∈ client.queue.items) :
    client.queue.available = true := by
  by_contra unavailable
  -- no read of the last timestamp waits, so they have all finished
  have noRead : readsAt client.queue.state.lastTimestamp client.queue.items = 0 := by
    refine List.countP_eq_zero.mpr fun item mem isRead => unavailable ?_
    obtain ⟨token, value⟩ := item
    cases token with
    | read token =>
      exact inv.available_of_queued_read mem (by simpa [Token.isReadAt] using isRead)
    | write token => simp [Token.isReadAt] at isRead
  have readsDone : readsAt client.queue.state.lastTimestamp client.finished =
      readsAt client.queue.state.lastTimestamp issued := by
    have count := inv.readsAt_parts client.queue.state.lastTimestamp
    simp only [pushed, idle, readsAt_nil, List.map_nil] at count
    omega
  -- a token is left over, so the source issued the next write
  have nextIssued : 0 < writesAt (client.queue.state.lastTimestamp + 1) issued := by
    obtain ⟨token, value⟩ := x
    have inIssued := inv.issued_of_items left
    cases token with
    | read token =>
      -- a read of an earlier timestamp has finished, and one of the last would be handed out
      have later : client.queue.state.lastTimestamp < token.timestamp := by
        rcases Nat.lt_trichotomy token.timestamp client.queue.state.lastTimestamp with
          earlier | same | later
        · have count := inv.readsAt_parts token.timestamp
          have queued := readsAt_pos left
          rw [inv.pastReads _ earlier] at count
          omega
        · exact absurd (inv.available_of_queued_read left same) unavailable
        · exact later
      have within := issuedWell.read_le _ _ inIssued
      rw [issuedWell.writesAt_eq]
      split_ifs <;> omega
    | write token =>
      have counted := writesAt_pos inIssued
      rw [issuedWell.writesAt_eq] at counted
      -- a write of a timestamp up to the last has finished
      have later : client.queue.state.lastTimestamp < token.timestamp := by
        by_contra notLater
        have count := inv.writesAt_parts token.timestamp
        have queued := writesAt_pos left
        rw [inv.finishedWrites, issuedWell.writesAt_eq] at count
        split_ifs at count counted <;> omega
      rw [issuedWell.writesAt_eq]
      split_ifs at counted ⊢ <;> omega
  -- it waits in the queue, and it expects as many reads as have finished
  have nextQueued : 0 < writesAt (client.queue.state.lastTimestamp + 1) client.queue.items := by
    have count := inv.writesAt_parts (client.queue.state.lastTimestamp + 1)
    rw [inv.finishedWrites] at count
    simp only [pushed, idle, writesAt_nil, List.map_nil] at count
    split_ifs at count <;> omega
  obtain ⟨⟨token, value⟩, mem, isWrite⟩ := List.countP_pos_iff.mp nextQueued
  cases token with
  | read token => simp [Token.isWriteAt] at isWrite
  | write token =>
    have next : token.timestamp = client.queue.state.lastTimestamp + 1 := by
      simpa [Token.isWriteAt] using isWrite
    refine unavailable (available_of_write (inv.writeQueue_of_items mem) next
      fun entry queued key' => ?_)
    obtain ⟨key, expected, token', value'⟩ := entry
    have keyed : token' = .write ⟨key, expected⟩ := inv.writeKeys _ queued
    subst keyed
    have preceding := issuedWell.precedingReads _ _
      (inv.issued_of_items (mem_items.mpr (.inr ⟨_, _, queued⟩)))
    simp only at key' preceding ⊢
    rw [preceding, key', Nat.add_sub_cancel, ← readsDone]
    exact inv.numReads.symm

/-- When every token is pushed, nothing runs and the queue is not available, every value the
source issued has been produced exactly once. -/
theorem Client.Inv.produced_of_drained (inv : client.Inv issued)
    (issuedWell : Issued writes issued) (pushed : client.pending = [])
    (idle : client.running = []) (unavailable : client.queue.control = false) :
    client.produced.Perm issued := by
  have empty : client.queue.items = [] := List.eq_nil_iff_forall_not_mem.mpr fun x left => by
    have available := inv.available_of_left issuedWell pushed idle left
    rw [← inv.control, unavailable] at available
    exact Bool.false_ne_true available
  have produced := inv.produced
  have parts := inv.parts
  rw [idle, List.map_nil, List.nil_append] at produced
  rw [pushed, empty, idle, List.map_nil, List.nil_append, List.nil_append, List.nil_append] at parts
  exact produced.trans parts

end Steps

/-! ## Every run -/

section Runs

variable {α : Type} {requests : List (Access × α)} {client : Client α}

theorem Client.Reachable.inv (reachable : client.Reachable requests) :
    client.Inv (FifoSource.init.issue requests) := by
  induction reachable with
  | start => exact inv_start requests
  | step _ allowed stepped ih =>
    obtain ⟨next, stepped', inv'⟩ := ih.step (issued_issue requests) allowed
    rw [stepped] at stepped'
    exact Option.some.inj stepped' ▸ inv'

/-- In every run of a client, each call it may make goes through, no assertion failing and the
queue never reaching its `crash`; `control` says exactly whether `produce_next_value` has a value;
the sink, fed the produced tokens in order and ended at each finish, has nobody waiting and has
pulsed every value that runs; and once every token is pushed, nothing runs and the queue is not
available, every value has been produced exactly once. -/
theorem fifo_queue_matches_sink (requests : List (Access × α))
    (reachable : client.Reachable requests) :
    (∀ e, client.Allowed e → ∃ client', client.step e = some client') ∧
    client.queue.control = client.queue.produceNextValue.isSome ∧
    client.sink.readQueue = [] ∧ client.sink.writeQueue = [] ∧
    (∀ r ∈ client.running, r.1 ∈ client.sink.pulsed) ∧
    (client.pending = [] → client.running = [] → client.queue.control = false →
      client.produced.Perm (FifoSource.init.issue requests)) := by
  have inv := reachable.inv
  have issuedWell := issued_issue requests
  refine ⟨fun e allowed => ?_, ?_, inv.readsIdle, inv.writesIdle, inv.pulsed,
    inv.produced_of_drained issuedWell⟩
  · obtain ⟨client', stepped, -⟩ := inv.step issuedWell allowed
    exact ⟨client', stepped⟩
  · rw [inv.control, produceNextValue_isSome]

/-- A run that pushes a read and a write, produces and finishes each: its end is drained. -/
theorem fifo_queue_matches_sink_drained :
    ∃ client : Client Unit, client.Reachable [(.read, ()), (.write, ())] ∧
      client.produced.length = 2 ∧
      ((∀ e, client.Allowed e → ∃ client', client.step e = some client') ∧
        client.queue.control = client.queue.produceNextValue.isSome ∧
        client.sink.readQueue = [] ∧ client.sink.writeQueue = [] ∧
        (∀ r ∈ client.running, r.1 ∈ client.sink.pulsed) ∧
        (client.pending = [] → client.running = [] → client.queue.control = false →
          client.produced.Perm (FifoSource.init.issue [(.read, ()), (.write, ())]))) := by
  -- push the read, produce and finish it, then the same for the write
  have pushedRead := @Client.Reachable.step _ [(Access.read, ()), (Access.write, ())] _ _
    (.push 0) .start (by show 0 < _; decide) rfl
  have producedRead := @Client.Reachable.step _ _ _ _ .produce pushedRead rfl rfl
  have finishedRead := @Client.Reachable.step _ _ _ _ (.finish 0) producedRead
    (by show 0 < _; decide) rfl
  have pushedWrite := @Client.Reachable.step _ _ _ _ (.push 0) finishedRead
    (by show 0 < _; decide) rfl
  have producedWrite := @Client.Reachable.step _ _ _ _ .produce pushedWrite rfl rfl
  have reachable := @Client.Reachable.step _ _ _ _ (.finish 0) producedWrite
    (by show 0 < _; decide) rfl
  exact ⟨_, reachable, rfl, fifo_queue_matches_sink _ reachable⟩

/-- Pushing every token and finishing every produced value does not yet make every value
produced: a run that has only pushed its one read has produced nothing. -/
theorem fifo_queue_pushed_not_produced :
    ∃ client : Client Unit, client.Reachable [(.read, ())] ∧ client.pending = [] ∧
      client.running = [] ∧ ¬client.produced.Perm (FifoSource.init.issue [(.read, ())]) :=
  ⟨_, @Client.Reachable.step _ [(Access.read, ())] _ _ (.push 0) .start (by show 0 < _; decide)
    rfl, rfl, rfl, by decide⟩

end Runs

end Concurrency
end RethinkDB
