import Mathlib

namespace RethinkDB
namespace Serializer

/-!
# The extent zone of the log serializer

`extent_zone_t` (`serializer/log/extent_manager.cc`) hands out the extents of the
database file.  Each extent has a state, unreserved, in use or free, and a count of the
references to it.  At startup every extent that the on-disk structures still use is
reserved; `reconstruct_free_list` then frees all the others and queues them in
`free_queue`, a min-heap of extent ids.  `gen_extent` takes the smallest free extent, or
appends a new one; releasing the last reference to an extent frees it, queues it, and
`try_shrink_file` cuts the free extents off the end of the file.  Ids of extents cut off
stay in the queue; `gen_extent` notices them only when the smallest one is past the end,
and `try_shrink_file` drops them when they make up most of the queue.

An extent is named by its index: the offset of extent `id` is `id * extent_size`, and
`offset_to_id` divides it back.  The file's size follows the extents and is left out.
The heap is modelled as its entries in increasing order, so that `top()` is the first.

Over every run of the extent manager that releases only references it handed out, no
`guarantee` or `rassert` fires, `held_extents_` counts the free extents and the queue
entries below the end of the file, each free extent is queued exactly once, and
`gen_extent` returns an extent nobody refers to (`extent_allocation_never_doubles`).
-/

/-- `extent_info_t::state_t`. -/
inductive ExtentState where
  | unreserved
  | inUse
  | free
  deriving DecidableEq, Repr

/-- `extent_info_t`: the state and `extent_use_refcount`. -/
structure ExtentInfo where
  state : ExtentState
  extentUseRefcount : Nat
  deriving DecidableEq, Repr

/-- `extent_info_t()`. -/
def ExtentInfo.empty : ExtentInfo := ⟨.unreserved, 0⟩

/-- A failed `guarantee`, which crashes the process, or a failed `rassert` of a debug
build. -/
inductive Failure where
  | guaranteeFailed
  | assertionFailed
  deriving DecidableEq, Repr

/-- `extent_info_t::set_state`: `guarantee(state_ != state_in_use || extent_use_refcount == 0)`. -/
def ExtentInfo.setState (info : ExtentInfo) (newState : ExtentState) : Except Failure ExtentInfo :=
  if info.state ≠ .inUse ∨ info.extentUseRefcount = 0 then .ok { info with state := newState }
  else .error .guaranteeFailed

/-- `extent_zone_t`: `extents`, `free_queue` in increasing order, `held_extents_`. -/
structure ExtentZone where
  extents : List ExtentInfo
  freeQueue : List Nat
  heldExtents : Nat
  deriving DecidableEq, Repr

/-- `free_queue.push(id)`. -/
def pushQueue (id : Nat) (queue : List Nat) : List Nat := queue.orderedInsert (· ≤ ·) id

namespace ExtentZone

/-- `extents[id]`; past the end it reads as a fresh entry. -/
def infoAt (zone : ExtentZone) (id : Nat) : ExtentInfo := zone.extents.getD id .empty

/-- `make_extent_reference`: `guarantee(id < extents.size())`, `guarantee` the extent is in
use, and one more reference. -/
def makeExtentReference (zone : ExtentZone) (id : Nat) : Except Failure (ExtentZone × Nat) :=
  if id < zone.extents.length then
    if (zone.infoAt id).state = .inUse then
      .ok ({ zone with
          extents := zone.extents.set id
            { zone.infoAt id with extentUseRefcount := (zone.infoAt id).extentUseRefcount + 1 } },
        id)
    else .error .guaranteeFailed
  else .error .guaranteeFailed

/-- `reserve_extent`: grow `extents` to reach the id, `rassert` the extent is unreserved,
put it in use and refer to it. -/
def reserveExtent (zone : ExtentZone) (id : Nat) : Except Failure (ExtentZone × Nat) :=
  let extents :=
    if zone.extents.length ≤ id then
      zone.extents ++ List.replicate (id + 1 - zone.extents.length) .empty
    else zone.extents
  let info := extents.getD id .empty
  if info.state = .unreserved then
    match info.setState .inUse with
    | .ok info => makeExtentReference { zone with extents := extents.set id info } id
    | .error failure => .error failure
  else .error .assertionFailed

/-- One turn of `reconstruct_free_list`: an unreserved extent becomes free, is queued and
counted.  `set_state` cannot fail on it. -/
def reconstructStep (zone : ExtentZone) (id : Nat) : ExtentZone :=
  if (zone.infoAt id).state = .unreserved then
    { extents := zone.extents.set id { zone.infoAt id with state := .free }
      freeQueue := pushQueue id zone.freeQueue
      heldExtents := zone.heldExtents + 1 }
  else zone

/-- `reconstruct_free_list`. -/
def reconstructFreeList (zone : ExtentZone) : ExtentZone :=
  (List.range zone.extents.length).foldl reconstructStep zone

/-- The extent `gen_extent` picks and the zone it leaves, before the extent is put in use:
with an empty queue, or one whose smallest id is past the end (which is then emptied), a
new extent at the end; otherwise the smallest queued id.  Both first `rassert` that no
extent is held. -/
def pick (zone : ExtentZone) : Except Failure (ExtentZone × Nat) :=
  match zone.freeQueue with
  | [] =>
    if zone.heldExtents = 0 then
      .ok ({ zone with extents := zone.extents ++ [.empty] }, zone.extents.length)
    else .error .assertionFailed
  | top :: rest =>
    if zone.extents.length ≤ top then
      if zone.heldExtents = 0 then
        .ok ({ zone with extents := zone.extents ++ [.empty], freeQueue := [] }, zone.extents.length)
      else .error .assertionFailed
    else .ok ({ zone with freeQueue := rest, heldExtents := zone.heldExtents - 1 }, top)

/-- `gen_extent`: pick an extent, put it in use and refer to it. -/
def genExtent (zone : ExtentZone) : Except Failure (ExtentZone × Nat) :=
  match zone.pick with
  | .error failure => .error failure
  | .ok (zone, id) =>
    match (zone.infoAt id).setState .inUse with
    | .ok info => makeExtentReference { zone with extents := zone.extents.set id info } id
    | .error failure => .error failure

/-- The loop of `try_shrink_file` that pops free extents off the end, over the extents from
the back: what is left (still from the back), `held_extents_`, and whether it popped. -/
def popFree : List ExtentInfo → Nat → Bool → List ExtentInfo × Nat × Bool
  | info :: earlier, held, shrinkFile =>
    if info.state = .free then popFree earlier (held - 1) true
    else (info :: earlier, held, shrinkFile)
  | [], held, shrinkFile => ([], held, shrinkFile)

/-- `try_shrink_file`.  After popping, a queue more than twice as long as `held_extents_`
keeps only its `held_extents_` smallest ids, and the `guarantee` checks that the next one
is past the end; `top()` of an empty queue counts as failing it. -/
def tryShrinkFile (zone : ExtentZone) : Except Failure ExtentZone :=
  let popped := popFree zone.extents.reverse zone.heldExtents false
  let zone := { zone with extents := popped.1.reverse, heldExtents := popped.2.1 }
  if popped.2.2 then
    if zone.heldExtents < zone.freeQueue.length / 2 then
      match zone.freeQueue.drop zone.heldExtents with
      | top :: _ =>
        if zone.extents.length ≤ top then .ok { zone with freeQueue := zone.freeQueue.take zone.heldExtents }
        else .error .guaranteeFailed
      | [] => .error .guaranteeFailed
    else .ok zone
  else .ok zone

/-- `release_extent`: `guarantee` the extent is in use with a reference, drop one, and free,
queue and count the extent when that was the last, then try to shrink the file. -/
def releaseExtent (zone : ExtentZone) (id : Nat) : Except Failure ExtentZone :=
  if (zone.infoAt id).state = .inUse then
    if 0 < (zone.infoAt id).extentUseRefcount then
      let info := { zone.infoAt id with extentUseRefcount := (zone.infoAt id).extentUseRefcount - 1 }
      if info.extentUseRefcount = 0 then
        match info.setState .free with
        | .ok info =>
          tryShrinkFile { extents := zone.extents.set id info
                          freeQueue := pushQueue id zone.freeQueue
                          heldExtents := zone.heldExtents + 1 }
        | .error failure => .error failure
      else .ok { zone with extents := zone.extents.set id info }
    else .error .guaranteeFailed
  else .error .guaranteeFailed

end ExtentZone

/-! ## The extent manager and its clients -/

/-- `extent_manager_t::state`; the shut-down state takes no calls and is left out. -/
inductive Phase where
  | reservingExtents
  | running
  deriving DecidableEq, Repr

/-- The extent manager's zone and phase, with the `extent_reference_t`s its clients hold and
those they released into extent transactions that are not committed yet. -/
structure ExtentManager where
  zone : ExtentZone
  phase : Phase
  references : List Nat
  transactions : List (List Nat)
  deriving DecidableEq, Repr

/-- The calls a client makes, with the references they name. -/
inductive Action where
  | reserveExtent (id : Nat)
  | startExisting
  | genExtent
  | copyExtentReference (ref : Nat)
  | releaseExtent (ref : Nat)
  | beginTransaction
  | releaseExtentIntoTransaction (ref : Nat)
  | commitTransaction (index : Nat)
  deriving DecidableEq, Repr

namespace ExtentManager

/-- A new manager over an empty file. -/
def initial : ExtentManager := ⟨⟨[], [], 0⟩, .reservingExtents, [], []⟩

/-- The references the zone counts: the clients' and the transactions'. -/
def outstanding (m : ExtentManager) : List Nat := m.references ++ m.transactions.flatten

/-- One call.  `release_extent_into_transaction` moves the reference into the current
transaction, the first one; `commit_transaction` releases a transaction's references in
order. -/
def apply (m : ExtentManager) : Action → Except Failure ExtentManager
  | .reserveExtent id => do
    let (zone, ref) ← m.zone.reserveExtent id
    pure { m with zone := zone, references := ref :: m.references }
  | .startExisting => pure { m with zone := m.zone.reconstructFreeList, phase := .running }
  | .genExtent => do
    let (zone, ref) ← m.zone.genExtent
    pure { m with zone := zone, references := ref :: m.references }
  | .copyExtentReference ref => do
    let (zone, copy) ← m.zone.makeExtentReference ref
    pure { m with zone := zone, references := copy :: m.references }
  | .releaseExtent ref => do
    let zone ← m.zone.releaseExtent ref
    pure { m with zone := zone, references := m.references.erase ref }
  | .beginTransaction => pure { m with transactions := [] :: m.transactions }
  | .releaseExtentIntoTransaction ref =>
    pure { m with references := m.references.erase ref
                  transactions := match m.transactions with
                    | current :: older => (ref :: current) :: older
                    | [] => [[ref]] }
  | .commitTransaction index => do
    let zone ← (m.transactions.getD index []).foldlM ExtentZone.releaseExtent m.zone
    pure { m with zone := zone, transactions := m.transactions.eraseIdx index }

/-- The calls the manager's contract allows: reservations only before `start_existing`,
everything else after, and releases and copies only of references a client holds. -/
def Legal (m : ExtentManager) : Action → Prop
  | .reserveExtent id => m.phase = .reservingExtents ∧ (m.zone.infoAt id).state = .unreserved
  | .startExisting => m.phase = .reservingExtents
  | .genExtent => m.phase = .running
  | .copyExtentReference ref => m.phase = .running ∧ ref ∈ m.references
  | .releaseExtent ref => m.phase = .running ∧ ref ∈ m.references
  | .beginTransaction => m.phase = .running
  | .releaseExtentIntoTransaction ref =>
    m.phase = .running ∧ ref ∈ m.references ∧ m.transactions ≠ []
  | .commitTransaction index => m.phase = .running ∧ index < m.transactions.length

/-- The states a manager reaches from `initial` by allowed calls. -/
inductive Reachable : ExtentManager → Prop
  | initial : Reachable initial
  | step {m m' : ExtentManager} (action : Action) :
      Reachable m → m.Legal action → m.apply action = .ok m' → Reachable m'

end ExtentManager

/-! ## Entries and counts -/

theorem getD_set_self {α : Type} {l : List α} {i : Nat} (inside : i < l.length) (x d : α) :
    (l.set i x).getD i d = x := by
  simp [List.getD_eq_getElem?_getD, inside]

theorem getD_set_ne {α : Type} {l : List α} {i j : Nat} (other : i ≠ j) (x d : α) :
    (l.set i x).getD j d = l.getD j d := by
  simp [List.getD_eq_getElem?_getD, List.getElem?_set_ne other]

theorem pushQueue_perm (id : Nat) (queue : List Nat) : List.Perm (pushQueue id queue) (id :: queue) :=
  List.perm_orderedInsert _ id queue

theorem count_pushQueue (id other : Nat) (queue : List Nat) :
    (pushQueue id queue).count other = queue.count other + if id = other then 1 else 0 :=
  List.orderedInsert_count _ queue other id

/-- The entries below `n + 1` are those below `n` and the copies of `n`. -/
theorem countP_lt_succ (queue : List Nat) (n : Nat) :
    queue.countP (· < n + 1) = queue.countP (· < n) + queue.count n := by
  induction queue with
  | nil => rfl
  | cons entry rest ih =>
    simp only [List.countP_cons, List.count_cons, ih, beq_iff_eq]
    by_cases below : entry < n
    · have notEq : entry ≠ n := Nat.ne_of_lt below
      simp only [below, Nat.lt_succ_of_lt below, notEq, decide_true, if_true, if_false]
      omega
    · by_cases same : entry = n
      · simp [same]
        omega
      · have notBelow : ¬entry < n + 1 := by omega
        simp [below, notBelow, same]

/-- Where every id below `n` is queued once if it satisfies `p` and not at all otherwise,
the entries below `k ≤ n` are as many as the ids below `k` that satisfy `p`. -/
theorem countP_lt_eq_length_filter {queue : List Nat} {n : Nat} {p : Nat → Prop} [DecidablePred p]
    (queued : ∀ id < n, queue.count id = if p id then 1 else 0) :
    ∀ k ≤ n, queue.countP (· < k) = ((List.range k).filter fun id => decide (p id)).length
  | 0, _ => by simp
  | k + 1, within => by
    rw [countP_lt_succ, countP_lt_eq_length_filter queued k (Nat.le_of_succ_le within),
      queued k within, List.range_succ, List.filter_append, List.length_append]
    by_cases holds : p k <;> simp [holds]

/-- In a queue in increasing order, the entries below a bound come first. -/
theorem takeWhile_eq_filter_of_sorted {bound : Nat} :
    ∀ {queue : List Nat}, queue.Pairwise (· ≤ ·) →
      queue.takeWhile (· < bound) = queue.filter (· < bound)
  | [], _ => rfl
  | entry :: rest, sorted => by
    by_cases below : entry < bound
    · simp [below, takeWhile_eq_filter_of_sorted sorted.of_cons]
    · -- everything after the first entry is at least as large
      have none : rest.filter (· < bound) = [] := by
        rw [List.filter_eq_nil_iff]
        intro later member
        have above := List.rel_of_pairwise_cons sorted member
        simp only [decide_eq_true_eq]
        omega
      simp [below, none]

/-! ## The zone's invariants -/

/-- What holds of a running zone whose extents the list `refs` refers to: every extent is
in use or free; its reference count is the number of references to it, and positive exactly
when it is in use; the queue is in order and holds each free extent once and no other extent
below the end; `held_extents_` counts the entries below the end. -/
structure ZoneInv (zone : ExtentZone) (refs : List Nat) : Prop where
  reserved : ∀ id < zone.extents.length, (zone.infoAt id).state ≠ .unreserved
  refcount : ∀ id < zone.extents.length, (zone.infoAt id).extentUseRefcount = refs.count id
  inUse_iff : ∀ id < zone.extents.length,
    (zone.infoAt id).state = .inUse ↔ 0 < (zone.infoAt id).extentUseRefcount
  refs_lt : ∀ ref ∈ refs, ref < zone.extents.length
  sorted : zone.freeQueue.Pairwise (· ≤ ·)
  queued : ∀ id < zone.extents.length,
    zone.freeQueue.count id = if (zone.infoAt id).state = .free then 1 else 0
  held : zone.heldExtents = zone.freeQueue.countP (· < zone.extents.length)

/-- What holds while extents are being reserved: nothing is free or queued, and the counts
are as in `ZoneInv`. -/
structure ReservingInv (zone : ExtentZone) (refs : List Nat) : Prop where
  notFree : ∀ id < zone.extents.length, (zone.infoAt id).state ≠ .free
  refcount : ∀ id < zone.extents.length, (zone.infoAt id).extentUseRefcount = refs.count id
  inUse_iff : ∀ id < zone.extents.length,
    (zone.infoAt id).state = .inUse ↔ 0 < (zone.infoAt id).extentUseRefcount
  refs_lt : ∀ ref ∈ refs, ref < zone.extents.length
  queue : zone.freeQueue = []
  held : zone.heldExtents = 0

/-- The invariant only counts the references. -/
theorem ZoneInv.perm {zone : ExtentZone} {refs refs' : List Nat} (inv : ZoneInv zone refs)
    (same : List.Perm refs refs') : ZoneInv zone refs' where
  reserved := inv.reserved
  refcount id inside := (inv.refcount id inside).trans (same.count_eq id)
  inUse_iff := inv.inUse_iff
  refs_lt ref member := inv.refs_lt ref (same.mem_iff.mpr member)
  sorted := inv.sorted
  queued := inv.queued
  held := inv.held

theorem ReservingInv.perm {zone : ExtentZone} {refs refs' : List Nat} (inv : ReservingInv zone refs)
    (same : List.Perm refs refs') : ReservingInv zone refs' where
  notFree := inv.notFree
  refcount id inside := (inv.refcount id inside).trans (same.count_eq id)
  inUse_iff := inv.inUse_iff
  refs_lt ref member := inv.refs_lt ref (same.mem_iff.mpr member)
  queue := inv.queue
  held := inv.held

/-- The frame of every step that rewrites one entry of a running zone: what the new entry,
queue, count and references have to satisfy for the invariant to carry over. -/
theorem ZoneInv.update {zone : ExtentZone} {refs refs' : List Nat} {id : Nat} {info : ExtentInfo}
    {queue : List Nat} {held : Nat} (inv : ZoneInv zone refs) (inside : id < zone.extents.length)
    (reserved : info.state ≠ .unreserved) (refcount : info.extentUseRefcount = refs'.count id)
    (inUse_iff : info.state = .inUse ↔ 0 < info.extentUseRefcount)
    (otherRefs : ∀ other ≠ id, refs'.count other = refs.count other)
    (refs_lt : ∀ ref ∈ refs', ref < zone.extents.length) (sorted : queue.Pairwise (· ≤ ·))
    (queued : queue.count id = if info.state = .free then 1 else 0)
    (otherQueued : ∀ other ≠ id, other < zone.extents.length →
      queue.count other = zone.freeQueue.count other)
    (counted : held = queue.countP (· < zone.extents.length)) :
    ZoneInv ⟨zone.extents.set id info, queue, held⟩ refs' := by
  have length : (zone.extents.set id info).length = zone.extents.length := List.length_set
  -- the new entry, and every other one as it was
  have atId : ExtentZone.infoAt ⟨zone.extents.set id info, queue, held⟩ id = info :=
    getD_set_self inside info .empty
  have atOther : ∀ other ≠ id, ExtentZone.infoAt ⟨zone.extents.set id info, queue, held⟩ other =
      zone.infoAt other := fun other ne => getD_set_ne (Ne.symm ne) info .empty
  refine ⟨fun j below => ?_, fun j below => ?_, fun j below => ?_, fun ref member => ?_, sorted,
    fun j below => ?_, ?_⟩
  · by_cases same : j = id
    · rw [same, atId]
      exact reserved
    · rw [atOther j same]
      exact inv.reserved j (length ▸ below)
  · by_cases same : j = id
    · rw [same, atId]
      exact refcount
    · rw [atOther j same, otherRefs j same]
      exact inv.refcount j (length ▸ below)
  · by_cases same : j = id
    · rw [same, atId]
      exact inUse_iff
    · rw [atOther j same]
      exact inv.inUse_iff j (length ▸ below)
  · simpa only [length] using refs_lt ref member
  · by_cases same : j = id
    · rw [same, atId]
      exact queued
    · rw [atOther j same, otherQueued j same (length ▸ below)]
      exact inv.queued j (length ▸ below)
  · simpa only [length] using counted

/-! ## References and `gen_extent` -/

namespace ExtentZone

theorem makeExtentReference_of_inUse {zone : ExtentZone} {id : Nat}
    (inside : id < zone.extents.length) (inUse : (zone.infoAt id).state = .inUse) :
    zone.makeExtentReference id =
      .ok (⟨zone.extents.set id ⟨.inUse, (zone.infoAt id).extentUseRefcount + 1⟩, zone.freeQueue,
        zone.heldExtents⟩, id) := by
  simp [makeExtentReference, inside, inUse]

/-- With no queued id below the end, `gen_extent` appends an extent in use with one
reference and empties the queue. -/
theorem genExtent_of_none_below {zone : ExtentZone} (held : zone.heldExtents = 0)
    (noneBelow : zone.freeQueue.countP (· < zone.extents.length) = 0) :
    zone.genExtent =
      .ok (⟨zone.extents ++ [⟨.inUse, 1⟩], [], zone.heldExtents⟩, zone.extents.length) := by
  have appended : ∀ queue : List Nat,
      ExtentZone.makeExtentReference
        ⟨(zone.extents ++ [ExtentInfo.empty]).set zone.extents.length ⟨.inUse, 0⟩,
        queue, zone.heldExtents⟩ zone.extents.length =
      .ok (⟨zone.extents ++ [⟨.inUse, 1⟩], queue, zone.heldExtents⟩, zone.extents.length) := by
    intro queue
    have setLast : (zone.extents ++ [ExtentInfo.empty]).set zone.extents.length ⟨.inUse, 0⟩ =
        zone.extents ++ [⟨.inUse, 0⟩] := by simp
    rw [setLast, makeExtentReference_of_inUse (by simp) (by simp [infoAt])]
    simp [infoAt]
  -- the appended entry is fresh, and putting it in use cannot fail
  have fresh : ∀ queue : List Nat,
      ExtentZone.infoAt ⟨zone.extents ++ [ExtentInfo.empty], queue, zone.heldExtents⟩
        zone.extents.length = .empty := fun _ => by simp [infoAt]
  have putInUse : ExtentInfo.empty.setState .inUse = .ok ⟨.inUse, 0⟩ := rfl
  unfold genExtent pick
  cases queue : zone.freeQueue with
  | nil =>
    simp only [if_pos held, fresh, putInUse]
    exact appended []
  | cons top rest =>
    -- the smallest id is already past the end
    have past : zone.extents.length ≤ top := by
      rw [queue, List.countP_cons] at noneBelow
      by_contra below
      simp [Nat.lt_of_not_le below] at noneBelow
    simp only [if_pos past, if_pos held, fresh, putInUse]
    exact appended []

end ExtentZone

/-- Appending an extent in use with the one new reference to it keeps a running zone's
invariant, when no id below the end was queued. -/
theorem ZoneInv.append {zone : ExtentZone} {refs : List Nat} (inv : ZoneInv zone refs)
    (noneBelow : zone.freeQueue.countP (· < zone.extents.length) = 0) :
    ZoneInv ⟨zone.extents ++ [⟨.inUse, 1⟩], [], zone.heldExtents⟩ (zone.extents.length :: refs) := by
  have fresh : zone.extents.length ∉ refs := fun member =>
    Nat.lt_irrefl _ (inv.refs_lt _ member)
  -- old entries stay, the new one is in use
  have atOld : ∀ id < zone.extents.length,
      ExtentZone.infoAt ⟨zone.extents ++ [⟨.inUse, 1⟩], [], zone.heldExtents⟩ id = zone.infoAt id :=
    fun id below => List.getD_append _ _ _ _ below
  have atNew : ExtentZone.infoAt ⟨zone.extents ++ [⟨.inUse, 1⟩], [], zone.heldExtents⟩
      zone.extents.length = ⟨.inUse, 1⟩ := by
    simp [ExtentZone.infoAt]
  -- nothing below the end was queued, so nothing below it is free
  have notFree : ∀ id < zone.extents.length, (zone.infoAt id).state ≠ .free := by
    intro id below free
    have once := inv.queued id below
    rw [if_pos free] at once
    have counted : zone.freeQueue.count id ≤ zone.freeQueue.countP (· < zone.extents.length) := by
      rw [List.count_eq_countP]
      apply List.countP_mono_left
      intro entry _ same
      simp only [beq_iff_eq] at same
      simpa [same] using below
    omega
  have cases : ∀ id, id < zone.extents.length + 1 → id < zone.extents.length ∨ id = zone.extents.length :=
    fun id below => by omega
  refine ⟨fun id below => ?_, fun id below => ?_, fun id below => ?_, fun ref member => ?_,
    List.Pairwise.nil, fun id below => ?_, ?_⟩
  · rcases cases id (by simpa using below) with old | rfl
    · rw [atOld id old]
      exact inv.reserved id old
    · rw [atNew]
      simp
  · rcases cases id (by simpa using below) with old | rfl
    · rw [atOld id old, inv.refcount id old, List.count_cons_of_ne (Nat.ne_of_lt old).symm]
    · rw [atNew, List.count_cons_self, List.count_eq_zero_of_not_mem fresh]
  · rcases cases id (by simpa using below) with old | rfl
    · rw [atOld id old]
      exact inv.inUse_iff id old
    · rw [atNew]
      simp
  · rcases List.mem_cons.mp member with rfl | old
    · simp
    · simpa using Nat.lt_succ_of_lt (inv.refs_lt ref old)
  · rcases cases id (by simpa using below) with old | rfl
    · rw [atOld id old, if_neg (notFree id old)]
      rfl
    · rw [atNew]
      rfl
  · rw [inv.held, noneBelow]
    rfl

/-- What the invariant says of one extent below the end: its entry is determined by its
number of references and whether it is queued. -/
theorem ZoneInv.infoAt_eq {zone : ExtentZone} {refs : List Nat} (inv : ZoneInv zone refs) {id : Nat}
    (inside : id < zone.extents.length) :
    (zone.infoAt id = ⟨.free, 0⟩ ∧ refs.count id = 0) ∨
      (zone.infoAt id = ⟨.inUse, refs.count id⟩ ∧ 0 < refs.count id) := by
  have refcount := inv.refcount id inside
  have inUse_iff := inv.inUse_iff id inside
  have reserved := inv.reserved id inside
  cases state : (zone.infoAt id).state with
  | unreserved => exact absurd state reserved
  | free =>
    have none : (zone.infoAt id).extentUseRefcount = 0 := by
      by_contra some
      exact absurd (inUse_iff.mpr (Nat.pos_of_ne_zero some)) (by simp [state])
    left
    refine ⟨?_, refcount ▸ none⟩
    rw [← state, ← none]
  | inUse =>
    right
    refine ⟨?_, refcount ▸ inUse_iff.mp state⟩
    rw [← state, ← refcount]

namespace ExtentZone

/-- With a free extent at the head of the queue, `gen_extent` takes it. -/
theorem genExtent_of_queued {zone : ExtentZone} {top : Nat} {rest : List Nat}
    (queue : zone.freeQueue = top :: rest) (below : top < zone.extents.length)
    (free : zone.infoAt top = ⟨.free, 0⟩) :
    zone.genExtent = .ok (⟨zone.extents.set top ⟨.inUse, 1⟩, rest, zone.heldExtents - 1⟩, top) := by
  have putInUse : ExtentInfo.setState ⟨.free, 0⟩ .inUse = .ok ⟨.inUse, 0⟩ := rfl
  have taken : ExtentZone.infoAt ⟨zone.extents, rest, zone.heldExtents - 1⟩ top = ⟨.free, 0⟩ := free
  have referred : ExtentZone.makeExtentReference
      ⟨zone.extents.set top ⟨.inUse, 0⟩, rest, zone.heldExtents - 1⟩ top =
      .ok (⟨zone.extents.set top ⟨.inUse, 1⟩, rest, zone.heldExtents - 1⟩, top) := by
    have atTop : ExtentZone.infoAt ⟨zone.extents.set top ⟨.inUse, 0⟩, rest, zone.heldExtents - 1⟩
        top = ⟨.inUse, 0⟩ := getD_set_self below _ _
    rw [makeExtentReference_of_inUse (by simpa using below) (by rw [atTop]), atTop, List.set_set]
  unfold genExtent pick
  simp only [queue, if_neg (Nat.not_le.mpr below)]
  simp only [taken, putInUse]
  exact referred

/-- Dropping one of several references. -/
theorem releaseExtent_of_shared {zone : ExtentZone} {ref count : Nat}
    (entry : zone.infoAt ref = ⟨.inUse, count + 2⟩) :
    zone.releaseExtent ref = .ok ⟨zone.extents.set ref ⟨.inUse, count + 1⟩, zone.freeQueue,
      zone.heldExtents⟩ := by
  simp [releaseExtent, entry]

/-- Dropping the last reference frees and queues the extent, then tries to shrink the file. -/
theorem releaseExtent_of_last {zone : ExtentZone} {ref : Nat}
    (entry : zone.infoAt ref = ⟨.inUse, 1⟩) :
    zone.releaseExtent ref = tryShrinkFile ⟨zone.extents.set ref ⟨.free, 0⟩,
      pushQueue ref zone.freeQueue, zone.heldExtents + 1⟩ := by
  simp [releaseExtent, entry, ExtentInfo.setState]

end ExtentZone

/-- `gen_extent` on a free extent at the head of the queue keeps the invariant. -/
theorem ZoneInv.reuse {zone : ExtentZone} {refs rest : List Nat} {top : Nat}
    (inv : ZoneInv zone refs) (queue : zone.freeQueue = top :: rest)
    (below : top < zone.extents.length) :
    zone.infoAt top = ⟨.free, 0⟩ ∧
      ZoneInv ⟨zone.extents.set top ⟨.inUse, 1⟩, rest, zone.heldExtents - 1⟩ (top :: refs) := by
  have queuedTop : zone.freeQueue.count top = 1 := by
    have once := inv.queued top below
    rw [queue, List.count_cons_self] at once
    rw [queue, List.count_cons_self]
    split at once <;> omega
  -- the head of the queue is free
  have entry : zone.infoAt top = ⟨.free, 0⟩ ∧ refs.count top = 0 := by
    rcases inv.infoAt_eq below with free | ⟨inUse, -⟩
    · exact free
    · have zero := inv.queued top below
      rw [inUse, queuedTop] at zero
      cases zero
  refine ⟨entry.1, inv.update below (by simp) (by simp [entry.2]) (by simp)
    (fun other ne => List.count_cons_of_ne (Ne.symm ne)) (fun ref member => ?_)
    (List.Pairwise.of_cons (queue ▸ inv.sorted)) ?_ (fun other ne _ => ?_) ?_⟩
  · rcases List.mem_cons.mp member with rfl | old
    · exact below
    · exact inv.refs_lt ref old
  · rw [queue, List.count_cons_self] at queuedTop
    simpa using queuedTop
  · rw [queue, List.count_cons_of_ne (Ne.symm ne)]
  · rw [inv.held, queue, List.countP_cons]
    simp [below]

/-- Another reference to an extent a client holds keeps the invariant. -/
theorem ZoneInv.copy {zone : ExtentZone} {refs : List Nat} {ref : Nat} (inv : ZoneInv zone refs)
    (member : ref ∈ refs) :
    ∃ zone', zone.makeExtentReference ref = .ok (zone', ref) ∧ ZoneInv zone' (ref :: refs) := by
  have inside := inv.refs_lt ref member
  have counted : 0 < refs.count ref := List.count_pos_iff.mpr member
  have entry : zone.infoAt ref = ⟨.inUse, refs.count ref⟩ := by
    rcases inv.infoAt_eq inside with ⟨-, zero⟩ | ⟨inUse, -⟩
    · omega
    · exact inUse
  refine ⟨_, ExtentZone.makeExtentReference_of_inUse inside (by simp [entry]), ?_⟩
  have notQueued := inv.queued ref inside
  rw [entry] at notQueued
  refine inv.update inside (by simp) (by simp [entry]) (by simp)
    (fun other ne => List.count_cons_of_ne (Ne.symm ne)) (fun r member' => ?_) inv.sorted
    (by simpa using notQueued) (fun _ _ _ => rfl) inv.held
  rcases List.mem_cons.mp member' with rfl | old
  · exact inside
  · exact inv.refs_lt r old

/-! ## `release_extent` -/

/-- Dropping one of several references to an extent keeps the invariant. -/
theorem ZoneInv.releaseShared {zone : ExtentZone} {refs : List Nat} {ref count : Nat}
    (inv : ZoneInv zone refs) (member : ref ∈ refs) (shared : refs.count ref = count + 2) :
    ZoneInv ⟨zone.extents.set ref ⟨.inUse, count + 1⟩, zone.freeQueue, zone.heldExtents⟩
      (refs.erase ref) := by
  have inside := inv.refs_lt ref member
  have notQueued := inv.queued ref inside
  have entry : zone.infoAt ref = ⟨.inUse, count + 2⟩ := by
    rcases inv.infoAt_eq inside with ⟨-, zero⟩ | ⟨inUse, -⟩
    · omega
    · rw [inUse, shared]
  rw [entry] at notQueued
  refine inv.update inside (by simp) (by simp [shared]) (by simp)
    (fun other ne => List.count_erase_of_ne ne) (fun r kept => inv.refs_lt r (List.mem_of_mem_erase kept))
    inv.sorted (by simpa using notQueued) (fun _ _ _ => rfl) inv.held

/-- Freeing and queueing an extent whose last reference goes keeps the invariant, before the
file is shrunk. -/
theorem ZoneInv.releaseLast {zone : ExtentZone} {refs : List Nat} {ref : Nat}
    (inv : ZoneInv zone refs) (member : ref ∈ refs) (last : refs.count ref = 1) :
    ZoneInv ⟨zone.extents.set ref ⟨.free, 0⟩, pushQueue ref zone.freeQueue, zone.heldExtents + 1⟩
      (refs.erase ref) := by
  have inside := inv.refs_lt ref member
  have notQueued := inv.queued ref inside
  have entry : zone.infoAt ref = ⟨.inUse, 1⟩ := by
    rcases inv.infoAt_eq inside with ⟨-, zero⟩ | ⟨inUse, -⟩
    · omega
    · rw [inUse, last]
  rw [entry] at notQueued
  refine inv.update inside (by simp) (by simp [last]) (by simp)
    (fun other ne => List.count_erase_of_ne ne) (fun r kept => inv.refs_lt r (List.mem_of_mem_erase kept))
    (inv.sorted.orderedInsert ref _) ?_ (fun other ne _ => ?_) ?_
  · rw [count_pushQueue, if_pos rfl]
    simpa using notQueued
  · rw [count_pushQueue, if_neg (Ne.symm ne), Nat.add_zero]
  · rw [(pushQueue_perm ref zone.freeQueue).countP_eq, List.countP_cons, inv.held]
    simp [inside]

/-! ## `try_shrink_file` -/

namespace ExtentZone

/-- The loop pops the free extents at the back, counting each off `held`. -/
theorem popFree_eq (reversed : List ExtentInfo) (held : Nat) (shrinkFile : Bool) :
    popFree reversed held shrinkFile =
      (reversed.dropWhile (·.state = .free), held - (reversed.takeWhile (·.state = .free)).length,
        shrinkFile || !(reversed.takeWhile (·.state = .free)).isEmpty) := by
  induction reversed generalizing held shrinkFile with
  | nil => simp [popFree]
  | cons info earlier ih =>
    by_cases free : info.state = .free
    · rw [popFree, if_pos free, ih, List.dropWhile_cons_of_pos (by simpa using free),
        List.takeWhile_cons_of_pos (by simpa using free)]
      simp [Nat.sub_sub, Nat.add_comm]
    · rw [popFree, if_neg free, List.dropWhile_cons_of_neg (by simpa using free),
        List.takeWhile_cons_of_neg (by simpa using free)]
      simp

end ExtentZone

/-- Where every id from `n` up to `n + k` satisfies `p`, they add `k` to those below `n`. -/
theorem length_filter_range_add {p : Nat → Prop} [DecidablePred p] (n : Nat) :
    ∀ k, (∀ i, n ≤ i → i < n + k → p i) →
      ((List.range (n + k)).filter fun i => decide (p i)).length =
        ((List.range n).filter fun i => decide (p i)).length + k
  | 0, _ => rfl
  | k + 1, holds => by
    have last : p (n + k) := holds (n + k) (Nat.le_add_right n k) (by omega)
    rw [← Nat.add_assoc, List.range_succ, List.filter_append, List.length_append,
      length_filter_range_add n k (fun i low high => holds i low (by omega))]
    simp [last, Nat.add_assoc]

/-- Cutting free extents off the end keeps the invariant, with `held_extents_` lowered by
their number. -/
theorem ZoneInv.dropFree {zone : ExtentZone} {refs : List Nat} {kept popped : List ExtentInfo}
    (inv : ZoneInv zone refs) (split : zone.extents = kept ++ popped)
    (allFree : ∀ info ∈ popped, info.state = .free) :
    ZoneInv ⟨kept, zone.freeQueue, zone.heldExtents - popped.length⟩ refs := by
  have length : zone.extents.length = kept.length + popped.length := by
    rw [split, List.length_append]
  have atKept : ∀ id < kept.length,
      ExtentZone.infoAt ⟨kept, zone.freeQueue, zone.heldExtents - popped.length⟩ id = zone.infoAt id :=
    fun id below => by
      unfold ExtentZone.infoAt
      rw [split, List.getD_append _ _ _ _ below]
  have inside : ∀ id < kept.length, id < zone.extents.length := fun id below => by omega
  -- the extents cut off are free, so nothing refers to them
  have freeBeyond : ∀ id, kept.length ≤ id → id < zone.extents.length →
      (zone.infoAt id).state = .free := by
    intro id low high
    have within : id - kept.length < popped.length := by omega
    unfold ExtentZone.infoAt
    rw [split, List.getD_append_right _ _ _ _ low, List.getD_eq_getElem _ _ within]
    exact allFree _ (List.getElem_mem within)
  have refs_lt : ∀ ref ∈ refs, ref < kept.length := by
    intro ref member
    by_contra beyond
    have high := inv.refs_lt ref member
    rcases inv.infoAt_eq high with ⟨-, zero⟩ | ⟨inUse, -⟩
    · exact absurd (List.count_pos_iff.mpr member) (by omega)
    · have free := freeBeyond ref (Nat.le_of_not_lt beyond) high
      rw [inUse] at free
      cases free
  -- both counts read off the free extents below the bound
  have countedKept := countP_lt_eq_length_filter inv.queued kept.length (by omega)
  have countedAll := countP_lt_eq_length_filter inv.queued zone.extents.length (Nat.le_refl _)
  rw [length, length_filter_range_add kept.length popped.length
    (fun i low high => freeBeyond i low (by omega))] at countedAll
  refine ⟨fun id below => ?_, fun id below => ?_, fun id below => ?_, refs_lt, inv.sorted,
    fun id below => ?_, ?_⟩
  · rw [atKept id below]
    exact inv.reserved id (inside id below)
  · rw [atKept id below]
    exact inv.refcount id (inside id below)
  · rw [atKept id below]
    exact inv.inUse_iff id (inside id below)
  · rw [atKept id below]
    exact inv.queued id (inside id below)
  · show zone.heldExtents - popped.length = zone.freeQueue.countP (· < kept.length)
    rw [inv.held, length, countedAll, countedKept]
    omega

/-- The queue entries below the end come first, and there are `held_extents_` of them. -/
theorem ZoneInv.length_takeWhile {zone : ExtentZone} {refs : List Nat} (inv : ZoneInv zone refs) :
    (zone.freeQueue.takeWhile (· < zone.extents.length)).length = zone.heldExtents := by
  rw [takeWhile_eq_filter_of_sorted inv.sorted, ← List.countP_eq_length_filter, inv.held]

theorem ZoneInv.take_held {zone : ExtentZone} {refs : List Nat} (inv : ZoneInv zone refs) :
    zone.freeQueue.take zone.heldExtents = zone.freeQueue.filter (· < zone.extents.length) := by
  have whole : zone.freeQueue.takeWhile (· < zone.extents.length) ++
      zone.freeQueue.dropWhile (· < zone.extents.length) = zone.freeQueue :=
    List.takeWhile_append_dropWhile
  calc zone.freeQueue.take zone.heldExtents
      = (zone.freeQueue.takeWhile (· < zone.extents.length) ++
          zone.freeQueue.dropWhile (· < zone.extents.length)).take zone.heldExtents := by rw [whole]
    _ = zone.freeQueue.takeWhile (· < zone.extents.length) := List.take_left' inv.length_takeWhile
    _ = zone.freeQueue.filter (· < zone.extents.length) := takeWhile_eq_filter_of_sorted inv.sorted

/-- A queue more than twice as long as `held_extents_` has an entry past the end right after
the first `held_extents_`: the `guarantee` of the rebuild holds. -/
theorem ZoneInv.drop_held {zone : ExtentZone} {refs : List Nat} (inv : ZoneInv zone refs)
    (long : zone.heldExtents < zone.freeQueue.length / 2) :
    ∃ top rest, zone.freeQueue.drop zone.heldExtents = top :: rest ∧ zone.extents.length ≤ top := by
  have whole : zone.freeQueue.takeWhile (· < zone.extents.length) ++
      zone.freeQueue.dropWhile (· < zone.extents.length) = zone.freeQueue :=
    List.takeWhile_append_dropWhile
  have dropped : zone.freeQueue.drop zone.heldExtents =
      zone.freeQueue.dropWhile (· < zone.extents.length) := by
    calc zone.freeQueue.drop zone.heldExtents
        = (zone.freeQueue.takeWhile (· < zone.extents.length) ++
            zone.freeQueue.dropWhile (· < zone.extents.length)).drop zone.heldExtents := by rw [whole]
      _ = zone.freeQueue.dropWhile (· < zone.extents.length) := List.drop_left' inv.length_takeWhile
  have nonempty : zone.freeQueue.dropWhile (· < zone.extents.length) ≠ [] := by
    rw [← dropped]
    intro empty
    have none := congrArg List.length empty
    rw [List.length_drop, List.length_nil] at none
    omega
  refine ⟨_, _, dropped.trans (List.cons_head_tail nonempty).symm, ?_⟩
  simpa using List.head_dropWhile_not (· < zone.extents.length) nonempty

/-- Keeping only the queue entries below the end keeps the invariant. -/
theorem ZoneInv.filterQueue {zone : ExtentZone} {refs : List Nat} (inv : ZoneInv zone refs) :
    ZoneInv ⟨zone.extents, zone.freeQueue.filter (· < zone.extents.length), zone.heldExtents⟩ refs where
  reserved := inv.reserved
  refcount := inv.refcount
  inUse_iff := inv.inUse_iff
  refs_lt := inv.refs_lt
  sorted := inv.sorted.sublist List.filter_sublist
  queued id below := (List.count_filter (by simpa using below)).trans (inv.queued id below)
  held := by
    rw [inv.held, List.countP_filter]
    simp

/-- `try_shrink_file` on a running zone succeeds: it cuts off the free extents at the end and
no others, and the rebuilt queue passes the `guarantee` and keeps the invariant. -/
theorem ZoneInv.tryShrinkFile {zone : ExtentZone} {refs : List Nat} (inv : ZoneInv zone refs) :
    ∃ zone', zone.tryShrinkFile = .ok zone' ∧ ZoneInv zone' refs ∧
      zone'.extents = zone.extents.rdropWhile (·.state = .free) := by
  have split : zone.extents =
      zone.extents.rdropWhile (·.state = .free) ++ zone.extents.rtakeWhile (·.state = .free) :=
    List.rdropWhile_append_rtakeWhile.symm
  have shrunk := inv.dropFree split (fun info member => by simpa using List.mem_rtakeWhile_imp member)
  have popped : ExtentZone.popFree zone.extents.reverse zone.heldExtents false =
      ((zone.extents.rdropWhile (·.state = .free)).reverse,
        zone.heldExtents - (zone.extents.rtakeWhile (·.state = .free)).length,
        !(zone.extents.rtakeWhile (·.state = .free)).isEmpty) := by
    rw [ExtentZone.popFree_eq]
    simp [List.rdropWhile, List.rtakeWhile]
  unfold ExtentZone.tryShrinkFile
  simp only [popped, List.reverse_reverse]
  -- the rebuild branch is the only one that does more than pop
  split
  · split
    next long =>
      obtain ⟨top, rest, dropped, past⟩ := shrunk.drop_held long
      have taken := shrunk.take_held
      dsimp only at dropped past taken
      simp only [dropped, if_pos past, taken]
      exact ⟨_, rfl, shrunk.filterQueue, rfl⟩
    · exact ⟨_, rfl, shrunk, rfl⟩
  · exact ⟨_, rfl, shrunk, rfl⟩

/-- `release_extent` of a reference a client holds succeeds and keeps the invariant.  The
extent is freed exactly when that was its last reference, and then only the free extents at
the end are cut off. -/
theorem ZoneInv.release {zone : ExtentZone} {refs : List Nat} {ref : Nat} (inv : ZoneInv zone refs)
    (member : ref ∈ refs) :
    ∃ zone', zone.releaseExtent ref = .ok zone' ∧ ZoneInv zone' (refs.erase ref) ∧
      (refs.count ref = 1 ∧
          zone'.extents = (zone.extents.set ref ⟨.free, 0⟩).rdropWhile (·.state = .free) ∨
        1 < refs.count ref ∧ zone'.extents = zone.extents.set ref ⟨.inUse, refs.count ref - 1⟩) := by
  have counted : 0 < refs.count ref := List.count_pos_iff.mpr member
  have entry : zone.infoAt ref = ⟨.inUse, refs.count ref⟩ := by
    rcases inv.infoAt_eq (inv.refs_lt ref member) with ⟨-, zero⟩ | ⟨inUse, -⟩
    · omega
    · exact inUse
  by_cases last : refs.count ref = 1
  · obtain ⟨zone', shrink, inv', extents⟩ := (inv.releaseLast member last).tryShrinkFile
    refine ⟨zone', ?_, inv', .inl ⟨last, extents⟩⟩
    rw [ExtentZone.releaseExtent_of_last (by rw [entry, last]), shrink]
  · obtain ⟨count, shared⟩ : ∃ count, refs.count ref = count + 2 := ⟨refs.count ref - 2, by omega⟩
    refine ⟨_, ExtentZone.releaseExtent_of_shared (by rw [entry, shared]),
      inv.releaseShared member shared, .inr ⟨by omega, ?_⟩⟩
    rw [shared]
    rfl

/-- Committing a transaction releases its references one after the other; each is still held
when its turn comes. -/
theorem ZoneInv.releaseAll {refs : List Nat} :
    ∀ (released : List Nat) {zone : ExtentZone}, ZoneInv zone (released ++ refs) →
      ∃ zone', released.foldlM ExtentZone.releaseExtent zone = .ok zone' ∧ ZoneInv zone' refs
  | [], zone, inv => ⟨zone, rfl, inv⟩
  | ref :: rest, zone, inv => by
    obtain ⟨zone₁, first, inv₁, -⟩ := inv.release (List.mem_append_left _ (List.mem_cons_self ..))
    rw [List.cons_append, List.erase_cons_head] at inv₁
    obtain ⟨zone', others, inv'⟩ := ZoneInv.releaseAll rest inv₁
    refine ⟨zone', ?_, inv'⟩
    rw [List.foldlM_cons, first]
    exact others

/-- `gen_extent` on a running zone succeeds and hands out an extent nobody refers to, a new
one at the end or a free one, and leaves it in use with one reference. -/
theorem ZoneInv.gen {zone : ExtentZone} {refs : List Nat} (inv : ZoneInv zone refs) :
    ∃ zone' id, zone.genExtent = .ok (zone', id) ∧ ZoneInv zone' (id :: refs) ∧
      refs.count id = 0 ∧ (id = zone.extents.length ∨ (zone.infoAt id).state = .free) ∧
      zone'.infoAt id = ⟨.inUse, 1⟩ := by
  -- with no queued id below the end the file grows
  have appended : zone.freeQueue.countP (· < zone.extents.length) = 0 →
      ∃ zone' id, zone.genExtent = .ok (zone', id) ∧ ZoneInv zone' (id :: refs) ∧
        refs.count id = 0 ∧ (id = zone.extents.length ∨ (zone.infoAt id).state = .free) ∧
        zone'.infoAt id = ⟨.inUse, 1⟩ := fun noneBelow =>
    ⟨_, _, ExtentZone.genExtent_of_none_below (inv.held.trans noneBelow) noneBelow,
      inv.append noneBelow,
      List.count_eq_zero_of_not_mem fun member => Nat.lt_irrefl _ (inv.refs_lt _ member), .inl rfl,
      by simp [ExtentZone.infoAt]⟩
  cases queue : zone.freeQueue with
  | nil =>
    apply appended
    rw [queue]
    rfl
  | cons top rest =>
    by_cases below : top < zone.extents.length
    · obtain ⟨free, inv'⟩ := inv.reuse queue below
      have unreferenced : refs.count top = 0 := by
        have refcount := inv.refcount top below
        rw [free] at refcount
        exact refcount.symm
      exact ⟨_, _, ExtentZone.genExtent_of_queued queue below free, inv', unreferenced,
        .inr (by rw [free]), getD_set_self (by simpa using below) _ _⟩
    · -- the smallest entry is past the end, and so are all the others
      apply appended
      rw [List.countP_eq_zero, queue]
      intro entry member
      rcases List.mem_cons.mp member with rfl | later
      · simpa using below
      · have above := List.rel_of_pairwise_cons (queue ▸ inv.sorted) later
        simp only [decide_eq_true_eq]
        omega

/-! ## Startup -/

/-- While extents are being reserved, every id, also past the end, has a non-free entry whose
count is its number of references. -/
theorem ReservingInv.infoAt {zone : ExtentZone} {refs : List Nat} (inv : ReservingInv zone refs)
    (id : Nat) :
    (zone.infoAt id).state ≠ .free ∧ (zone.infoAt id).extentUseRefcount = refs.count id ∧
      ((zone.infoAt id).state = .inUse ↔ 0 < (zone.infoAt id).extentUseRefcount) := by
  by_cases inside : id < zone.extents.length
  · exact ⟨inv.notFree id inside, inv.refcount id inside, inv.inUse_iff id inside⟩
  · have fresh : zone.infoAt id = .empty := List.getD_eq_default _ _ (Nat.le_of_not_lt inside)
    have unreferenced : refs.count id = 0 :=
      List.count_eq_zero_of_not_mem fun member => inside (inv.refs_lt id member)
    rw [fresh, unreferenced]
    simp [ExtentInfo.empty]

theorem getD_append_replicate {α : Type} (l : List α) (k i : Nat) (d : α) :
    (l ++ List.replicate k d).getD i d = l.getD i d := by
  by_cases inside : i < l.length
  · exact List.getD_append _ _ _ _ inside
  · rw [List.getD_append_right _ _ _ _ (Nat.le_of_not_lt inside),
      List.getD_eq_default _ _ (Nat.le_of_not_lt inside)]
    by_cases within : i - l.length < k
    · exact List.getD_replicate _ within
    · exact List.getD_eq_default _ _ (by simpa using Nat.le_of_not_lt within)

namespace ExtentZone

/-- `reserve_extent` of an id with a fresh entry: the list grows to reach the id, reading
as before, and the extent is in use with one reference. -/
theorem reserveExtent_of_fresh {zone : ExtentZone} {id : Nat}
    (fresh : zone.infoAt id = ⟨.unreserved, 0⟩) :
    ∃ grown : List ExtentInfo, (∀ j, grown.getD j .empty = zone.infoAt j) ∧ id < grown.length ∧
      zone.extents.length ≤ grown.length ∧
      zone.reserveExtent id = .ok (⟨grown.set id ⟨.inUse, 1⟩, zone.freeQueue, zone.heldExtents⟩, id) := by
  have grownAt : ∀ j, (if zone.extents.length ≤ id then
      zone.extents ++ List.replicate (id + 1 - zone.extents.length) .empty
      else zone.extents).getD j .empty = zone.infoAt j := by
    intro j
    split
    · exact getD_append_replicate _ _ _ _
    · rfl
  have reaches : id < (if zone.extents.length ≤ id then
      zone.extents ++ List.replicate (id + 1 - zone.extents.length) .empty
      else zone.extents).length := by
    split
    next past =>
      rw [List.length_append, List.length_replicate]
      omega
    next inside => exact Nat.lt_of_not_le inside
  have longer : zone.extents.length ≤ (if zone.extents.length ≤ id then
      zone.extents ++ List.replicate (id + 1 - zone.extents.length) .empty
      else zone.extents).length := by
    split
    · simp
    · exact Nat.le_refl _
  have putInUse : ExtentInfo.setState ⟨.unreserved, 0⟩ .inUse = .ok ⟨.inUse, 0⟩ := rfl
  unfold reserveExtent
  simp only [grownAt, fresh, if_true, putInUse]
  generalize (if zone.extents.length ≤ id then
      zone.extents ++ List.replicate (id + 1 - zone.extents.length) .empty
      else zone.extents) = grown at grownAt reaches longer ⊢
  have atId : ExtentZone.infoAt ⟨grown.set id ⟨.inUse, 0⟩, zone.freeQueue, zone.heldExtents⟩ id =
      ⟨.inUse, 0⟩ := getD_set_self reaches _ _
  refine ⟨grown, grownAt, reaches, longer, ?_⟩
  rw [makeExtentReference_of_inUse (by simpa using reaches) (by rw [atId]), atId, List.set_set]

end ExtentZone

/-- Reserving an unreserved extent keeps the startup invariant, with the new reference. -/
theorem ReservingInv.reserve {zone : ExtentZone} {refs : List Nat} {id : Nat}
    (inv : ReservingInv zone refs) (unreserved : (zone.infoAt id).state = .unreserved) :
    ∃ zone', zone.reserveExtent id = .ok (zone', id) ∧ ReservingInv zone' (id :: refs) := by
  obtain ⟨-, refcount, inUse_iff⟩ := inv.infoAt id
  have unreferenced : (zone.infoAt id).extentUseRefcount = 0 := by
    by_contra some
    have inUse := inUse_iff.mpr (Nat.pos_of_ne_zero some)
    rw [unreserved] at inUse
    cases inUse
  have fresh : zone.infoAt id = ⟨.unreserved, 0⟩ := by
    rw [← unreserved, ← unreferenced]
  obtain ⟨grown, grownAt, reaches, longer, reserved⟩ := ExtentZone.reserveExtent_of_fresh fresh
  refine ⟨_, reserved, ?_⟩
  -- the reserved entry, and every other one as before
  have atId : ExtentZone.infoAt ⟨grown.set id ⟨.inUse, 1⟩, zone.freeQueue, zone.heldExtents⟩ id =
      ⟨.inUse, 1⟩ := getD_set_self reaches _ _
  have atOther : ∀ j ≠ id,
      ExtentZone.infoAt ⟨grown.set id ⟨.inUse, 1⟩, zone.freeQueue, zone.heldExtents⟩ j = zone.infoAt j :=
    fun j ne => (getD_set_ne (Ne.symm ne) _ _).trans (grownAt j)
  refine ⟨fun j _ => ?_, fun j _ => ?_, fun j _ => ?_, fun ref member => ?_, inv.queue, inv.held⟩
  · by_cases same : j = id
    · rw [same, atId]
      simp
    · rw [atOther j same]
      exact (inv.infoAt j).1
  · by_cases same : j = id
    · rw [same, atId, List.count_cons_self, ← refcount, unreferenced]
    · rw [atOther j same, List.count_cons_of_ne (Ne.symm same)]
      exact (inv.infoAt j).2.1
  · by_cases same : j = id
    · rw [same, atId]
      simp
    · rw [atOther j same]
      exact (inv.infoAt j).2.2
  · rw [List.length_set]
    rcases List.mem_cons.mp member with rfl | old
    · exact reaches
    · exact Nat.lt_of_lt_of_le (inv.refs_lt ref old) longer

/-- Pushing an id larger than every queued one puts it last. -/
theorem pushQueue_of_lt {id : Nat} :
    ∀ {queue : List Nat}, (∀ entry ∈ queue, entry < id) → pushQueue id queue = queue ++ [id]
  | [], _ => rfl
  | entry :: rest, smaller => by
    have later : ¬id ≤ entry := Nat.not_le.mpr (smaller entry List.mem_cons_self)
    unfold pushQueue
    rw [List.orderedInsert_of_not_le _ _ later]
    exact congrArg (entry :: ·) (pushQueue_of_lt fun other member => smaller other (List.mem_cons_of_mem _ member))

/-- What `reconstruct_free_list` has done to `zone` once it has looked at the ids below `k`:
those that were unreserved are free, and queued and counted in order. -/
structure Reconstructed (zone current : ExtentZone) (k : Nat) : Prop where
  length : current.extents.length = zone.extents.length
  entries : ∀ id, current.infoAt id =
    if id < k ∧ (zone.infoAt id).state = .unreserved then { zone.infoAt id with state := .free }
    else zone.infoAt id
  queue : current.freeQueue = (List.range k).filter fun id => (zone.infoAt id).state = .unreserved
  held : current.heldExtents = current.freeQueue.length

/-- One turn of the loop, at an id below the end. -/
theorem Reconstructed.step {zone current : ExtentZone} {k : Nat} (done : Reconstructed zone current k)
    (inside : k < zone.extents.length) :
    Reconstructed zone (current.reconstructStep k) (k + 1) := by
  have atK : current.infoAt k = zone.infoAt k := by
    rw [done.entries k]
    simp
  -- the ids below `k + 1` other than `k` are those below `k`
  have below : ∀ id ≠ k, (id < k + 1 ↔ id < k) := fun id ne => by omega
  unfold ExtentZone.reconstructStep
  rw [atK]
  by_cases unreserved : (zone.infoAt k).state = .unreserved
  · rw [if_pos unreserved]
    refine ⟨by rw [List.length_set, done.length], fun id => ?_, ?_, ?_⟩
    · by_cases same : id = k
      · rw [same, ExtentZone.infoAt, getD_set_self (done.length ▸ inside), if_pos ⟨Nat.lt_succ_self k, unreserved⟩]
      · rw [ExtentZone.infoAt, getD_set_ne (Ne.symm same), ← ExtentZone.infoAt, done.entries id]
        simp only [below id same]
    · rw [done.queue, pushQueue_of_lt, List.range_succ, List.filter_append]
      · simp [unreserved]
      · intro entry member
        exact List.mem_range.mp (List.mem_of_mem_filter member)
    · show current.heldExtents + 1 = (pushQueue k current.freeQueue).length
      rw [done.held, pushQueue, List.orderedInsert_length]
  · rw [if_neg unreserved]
    refine ⟨done.length, fun id => ?_, ?_, done.held⟩
    · rw [done.entries id]
      by_cases same : id = k
      · rw [same, if_neg (fun both => unreserved both.2), if_neg (fun both => unreserved both.2)]
      · simp only [below id same]
    · rw [done.queue, List.range_succ, List.filter_append]
      simp [unreserved]

/-- The whole loop of `reconstruct_free_list`. -/
theorem reconstructed_of_range {zone : ExtentZone} (empty : zone.freeQueue = [])
    (none : zone.heldExtents = 0) :
    ∀ k ≤ zone.extents.length,
      Reconstructed zone ((List.range k).foldl ExtentZone.reconstructStep zone) k
  | 0, _ => ⟨rfl, fun id => by simp, empty, by
      show zone.heldExtents = zone.freeQueue.length
      rw [none, empty]
      rfl⟩
  | k + 1, inside => by
    rw [List.range_succ, List.foldl_append]
    exact (reconstructed_of_range empty none k (Nat.le_of_succ_le inside)).step inside

/-- `reconstruct_free_list` turns the startup invariant into the running one: every extent
nobody reserved is free, queued once and counted. -/
theorem ReservingInv.reconstruct {zone : ExtentZone} {refs : List Nat} (inv : ReservingInv zone refs) :
    ZoneInv zone.reconstructFreeList refs := by
  have done := reconstructed_of_range inv.queue inv.held zone.extents.length (Nat.le_refl _)
  change Reconstructed zone zone.reconstructFreeList zone.extents.length at done
  have entries : ∀ id < zone.extents.length, zone.reconstructFreeList.infoAt id =
      if (zone.infoAt id).state = .unreserved then { zone.infoAt id with state := .free }
      else zone.infoAt id := fun id inside => by
    rw [done.entries id]
    simp [inside]
  -- an unreserved extent had no reference
  have unreferenced : ∀ id < zone.extents.length, (zone.infoAt id).state = .unreserved →
      (zone.infoAt id).extentUseRefcount = 0 := fun id inside unreserved => by
    by_contra some
    have inUse := (inv.inUse_iff id inside).mpr (Nat.pos_of_ne_zero some)
    rw [unreserved] at inUse
    cases inUse
  -- an extent is free afterwards exactly when nobody reserved it
  have free_iff : ∀ id < zone.extents.length,
      (zone.reconstructFreeList.infoAt id).state = .free ↔ (zone.infoAt id).state = .unreserved :=
    fun id inside => by
      rw [entries id inside]
      by_cases unreserved : (zone.infoAt id).state = .unreserved
      · simp [unreserved]
      · simp [unreserved, inv.notFree id inside]
  rw [← done.length] at entries unreferenced free_iff
  refine ⟨fun id inside => ?_, fun id inside => ?_, fun id inside => ?_, fun ref member => ?_, ?_,
    fun id inside => ?_, ?_⟩
  · rw [entries id inside]
    split <;> simp_all
  · rw [entries id inside]
    split <;> exact inv.refcount id (done.length ▸ inside)
  · rw [entries id inside]
    split
    next unreserved => simp [unreferenced id inside unreserved]
    next => exact inv.inUse_iff id (done.length ▸ inside)
  · exact done.length ▸ inv.refs_lt ref member
  · rw [done.queue]
    exact List.pairwise_le_range.filter _
  · rw [done.queue, (List.nodup_range.filter _).count]
    by_cases unreserved : (zone.infoAt id).state = .unreserved
    · rw [if_pos ((free_iff id inside).mpr unreserved)]
      simp [unreserved, done.length ▸ inside]
    · rw [if_neg (mt (free_iff id inside).mp unreserved)]
      simp [unreserved]
  · rw [done.held, done.length, eq_comm, List.countP_eq_length, done.queue]
    intro id member
    simpa using List.mem_of_mem_filter member

/-! ## Runs of the extent manager -/

namespace ExtentManager

/-- The manager's invariant: its zone's, over the references outstanding, by phase. -/
def Inv (m : ExtentManager) : Prop :=
  match m.phase with
  | .reservingExtents => ReservingInv m.zone m.outstanding
  | .running => ZoneInv m.zone m.outstanding

theorem Inv.reserving {m : ExtentManager} (inv : m.Inv) (reserving : m.phase = .reservingExtents) :
    ReservingInv m.zone m.outstanding := by
  unfold Inv at inv
  rw [reserving] at inv
  exact inv

theorem Inv.running {m : ExtentManager} (inv : m.Inv) (running : m.phase = .running) :
    ZoneInv m.zone m.outstanding := by
  unfold Inv at inv
  rw [running] at inv
  exact inv

theorem Inv.ofReserving {m : ExtentManager} (reserving : m.phase = .reservingExtents)
    (inv : ReservingInv m.zone m.outstanding) : m.Inv := by
  unfold Inv
  rw [reserving]
  exact inv

theorem Inv.ofRunning {m : ExtentManager} (running : m.phase = .running)
    (inv : ZoneInv m.zone m.outstanding) : m.Inv := by
  unfold Inv
  rw [running]
  exact inv

theorem inv_initial : initial.Inv where
  notFree _ inside := absurd inside (Nat.not_lt_zero _)
  refcount _ inside := absurd inside (Nat.not_lt_zero _)
  inUse_iff _ inside := absurd inside (Nat.not_lt_zero _)
  refs_lt _ member := absurd member List.not_mem_nil
  queue := rfl
  held := rfl

/-- The transactions after `release_extent_into_transaction` hold the reference besides
what they held. -/
theorem flatten_releaseIntoTransaction (ref : Nat) (transactions : List (List Nat)) :
    (match transactions with
      | current :: older => (ref :: current) :: older
      | [] => [[ref]]).flatten = ref :: transactions.flatten := by
  cases transactions <;> rfl

/-- Every allowed call succeeds and keeps the invariant. -/
theorem Inv.step {m : ExtentManager} {action : Action} (inv : m.Inv) (legal : m.Legal action) :
    ∃ m', m.apply action = .ok m' ∧ m'.Inv := by
  cases action with
  | reserveExtent id =>
    obtain ⟨reserving, unreserved⟩ := legal
    obtain ⟨zone', reserved, inv'⟩ := (inv.reserving reserving).reserve unreserved
    refine ⟨{ m with zone := zone', references := id :: m.references }, ?_,
      Inv.ofReserving reserving inv'⟩
    simp only [apply, reserved, bind, Except.bind, pure, Except.pure]
  | startExisting =>
    exact ⟨_, rfl, (inv.reserving legal).reconstruct⟩
  | genExtent =>
    obtain ⟨zone', id, generated, inv', -⟩ := (inv.running legal).gen
    refine ⟨{ m with zone := zone', references := id :: m.references }, ?_,
      Inv.ofRunning legal inv'⟩
    simp only [apply, generated, bind, Except.bind, pure, Except.pure]
  | copyExtentReference ref =>
    obtain ⟨running, member⟩ := legal
    obtain ⟨zone', copied, inv'⟩ :=
      (inv.running running).copy (List.mem_append_left _ member)
    refine ⟨{ m with zone := zone', references := ref :: m.references }, ?_,
      Inv.ofRunning running inv'⟩
    simp only [apply, copied, bind, Except.bind, pure, Except.pure]
  | releaseExtent ref =>
    obtain ⟨running, member⟩ := legal
    obtain ⟨zone', released, inv', -⟩ :=
      (inv.running running).release (List.mem_append_left _ member)
    refine ⟨{ m with zone := zone', references := m.references.erase ref }, ?_,
      Inv.ofRunning running ?_⟩
    · simp only [apply, released, bind, Except.bind, pure, Except.pure]
    · rw [outstanding, List.erase_append_left _ member] at inv'
      exact inv'
  | beginTransaction =>
    exact ⟨_, rfl, Inv.ofRunning legal (inv.running legal)⟩
  | releaseExtentIntoTransaction ref =>
    obtain ⟨running, member, -⟩ := legal
    refine ⟨_, rfl, Inv.ofRunning running ((inv.running running).perm ?_)⟩
    -- the reference moves from the client to the current transaction
    show List.Perm (m.references ++ m.transactions.flatten)
      (m.references.erase ref ++ (match m.transactions with
        | current :: older => (ref :: current) :: older
        | [] => [[ref]]).flatten)
    rw [flatten_releaseIntoTransaction]
    exact ((List.perm_cons_erase member).append_right _).trans List.perm_middle.symm
  | commitTransaction index =>
    obtain ⟨running, within⟩ := legal
    -- the committed transaction's references come first among those outstanding
    have moved : List.Perm m.outstanding
        (m.transactions[index] ++ (m.references ++ (m.transactions.eraseIdx index).flatten)) := by
      have flat : List.Perm m.transactions.flatten
          (m.transactions[index] ++ (m.transactions.eraseIdx index).flatten) := by
        rw [← List.flatten_cons]
        exact (List.getElem_cons_eraseIdx_perm within).symm.flatten
      exact (flat.append_left m.references).trans (List.perm_append_comm_assoc _ _ _)
    obtain ⟨zone', committed, inv'⟩ :=
      ZoneInv.releaseAll _ ((inv.running running).perm moved)
    refine ⟨{ m with zone := zone', transactions := m.transactions.eraseIdx index }, ?_,
      Inv.ofRunning running inv'⟩
    simp only [apply, List.getD_eq_getElem _ _ within, committed, bind, Except.bind, pure, Except.pure]

/-- Every reachable manager satisfies the invariant. -/
theorem Reachable.inv {m : ExtentManager} (reachable : m.Reachable) : m.Inv := by
  induction reachable with
  | initial => exact inv_initial
  | step action _ legal applied before =>
    obtain ⟨m', applied', inv'⟩ := before.step legal
    rw [applied] at applied'
    cases applied'
    exact inv'

end ExtentManager

/-- In a running zone an extent below the end is free exactly when nothing refers to it. -/
theorem ZoneInv.free_iff {zone : ExtentZone} {refs : List Nat} (inv : ZoneInv zone refs) {id : Nat}
    (inside : id < zone.extents.length) :
    (zone.infoAt id).state = .free ↔ (zone.infoAt id).extentUseRefcount = 0 := by
  rcases inv.infoAt_eq inside with ⟨free, -⟩ | ⟨inUse, referenced⟩
  · rw [free]
    simp
  · rw [inUse]
    simp only [reduceCtorEq, false_iff]
    exact Nat.pos_iff_ne_zero.mp referenced

namespace ExtentManager

/-- What the extent manager guarantees in a state: `held_extents_` counts both the free
extents and the queue entries below the end, each free extent is queued once and no other,
the reference counts are right, and every allowed call succeeds.  Once running, an extent is
free exactly when nothing refers to it; `gen_extent` hands out one nobody refers to, new or
free, and leaves it in use with one reference; releasing frees an extent exactly at its last
reference, and then cuts off the free extents at the end and no others. -/
structure SafeAllocation (m : ExtentManager) : Prop where
  heldFree : m.zone.heldExtents =
    ((List.range m.zone.extents.length).filter fun id => (m.zone.infoAt id).state = .free).length
  heldQueued : m.zone.heldExtents = m.zone.freeQueue.countP (· < m.zone.extents.length)
  queuedOnce : ∀ id < m.zone.extents.length,
    m.zone.freeQueue.count id = if (m.zone.infoAt id).state = .free then 1 else 0
  refcount : ∀ id < m.zone.extents.length,
    (m.zone.infoAt id).extentUseRefcount = m.outstanding.count id
  legal : ∀ action, m.Legal action → ∃ m', m.apply action = .ok m'
  free_iff : m.phase = .running → ∀ id < m.zone.extents.length,
    ((m.zone.infoAt id).state = .free ↔ (m.zone.infoAt id).extentUseRefcount = 0)
  genExtent : m.phase = .running → ∃ zone id, m.zone.genExtent = .ok (zone, id) ∧
    m.outstanding.count id = 0 ∧ (id = m.zone.extents.length ∨ (m.zone.infoAt id).state = .free) ∧
    zone.infoAt id = ⟨.inUse, 1⟩
  releaseExtent : m.phase = .running → ∀ ref ∈ m.outstanding,
    ∃ zone, m.zone.releaseExtent ref = .ok zone ∧
      (m.outstanding.count ref = 1 ∧
          zone.extents = (m.zone.extents.set ref ⟨.free, 0⟩).rdropWhile (·.state = .free) ∨
        1 < m.outstanding.count ref ∧
          zone.extents = m.zone.extents.set ref ⟨.inUse, m.outstanding.count ref - 1⟩)

theorem extent_allocation_never_doubles {m : ExtentManager} (reachable : m.Reachable) :
    m.SafeAllocation := by
  have inv := reachable.inv
  have legal : ∀ action, m.Legal action → ∃ m', m.apply action = .ok m' := fun _ allowed =>
    let ⟨m', applied, _⟩ := inv.step allowed
    ⟨m', applied⟩
  cases phase : m.phase with
  | reservingExtents =>
    -- nothing is free or queued yet, and the calls of a running manager are not allowed
    have zone := inv.reserving phase
    have notRunning : m.phase ≠ .running := by
      rw [phase]
      exact nofun
    have noneFree : ((List.range m.zone.extents.length).filter
        fun id => (m.zone.infoAt id).state = .free) = [] :=
      List.filter_eq_nil_iff.mpr fun id member => by
        simpa using zone.notFree id (List.mem_range.mp member)
    refine ⟨by rw [zone.held, noneFree]; rfl, by rw [zone.held, zone.queue]; rfl,
      fun id inside => ?_, zone.refcount, legal, fun running => absurd running notRunning,
      fun running => absurd running notRunning, fun running => absurd running notRunning⟩
    rw [zone.queue, if_neg (zone.notFree id inside)]
    rfl
  | running =>
    have zone := inv.running phase
    refine ⟨zone.held.trans (countP_lt_eq_length_filter zone.queued _ (Nat.le_refl _)), zone.held,
      zone.queued, zone.refcount, legal, fun _ id inside => zone.free_iff inside, fun _ => ?_,
      fun _ ref member => ?_⟩
    · obtain ⟨zone', id, generated, -, fresh⟩ := zone.gen
      exact ⟨zone', id, generated, fresh⟩
    · obtain ⟨zone', released, -, shape⟩ := zone.release member
      exact ⟨zone', released, shape⟩

/-- A run that reserves extent 1, starts, and generates an extent: `gen_extent` reuses the
extent 0 that `reconstruct_free_list` freed. -/
theorem extent_allocation_reuses_freed :
    SafeAllocation ⟨⟨[⟨.inUse, 1⟩, ⟨.inUse, 1⟩], [], 0⟩, .running, [0, 1], []⟩ :=
  extent_allocation_never_doubles
    (.step .genExtent (.step .startExisting (.step (.reserveExtent 1) .initial ⟨rfl, rfl⟩ rfl) rfl rfl)
      rfl rfl)

end ExtentManager

end Serializer
end RethinkDB
