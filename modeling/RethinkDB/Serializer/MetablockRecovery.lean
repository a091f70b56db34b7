import RethinkDB.Serializer.MetablockManager
import RethinkDB.Foundations.RingOrder
import Mathlib.Data.List.GetD

namespace RethinkDB
namespace Serializer

/-!
# Recovery across crashes

`co_start_existing` puts the head back on the slot of the newest block it finds, so the first
`co_write_metablock` after a start writes over that very block; every later write goes to the
slot after the one written before, over the oldest block of the ring.  This module follows the
ring through whole histories of starts, writes and crashes.  When the ring has two slots or
more and the write right after a start is never torn, the ring keeps the shape `Ring`: going
around from the slot after the newest block, the versions increase.  A start after any crash
then finds a block at least as new as the last write that returned.  A torn write right after
a start is the one case that loses it (`torn_write_after_restart_loses_completed`).
-/

open RingOrder

variable {M : Type}

/-! ## What the scan accepts -/

/-- The version of a slot that passes the checksum. -/
def Slot.checkedVersion : Slot M → Option Int
  | .corrupt => none
  | .valid _ version _ => some version

/-- The versions of the slots that pass the checksum, in slot order. -/
def checkedVersions (slots : List (Slot M)) : List Int :=
  slots.filterMap Slot.checkedVersion

@[simp] theorem checkedVersions_corrupt (slots : List (Slot M)) :
    checkedVersions (.corrupt :: slots) = checkedVersions slots := rfl

@[simp] theorem checkedVersions_valid (format : Nat) (version : Int) (metablock : M)
    (slots : List (Slot M)) :
    checkedVersions (.valid format version metablock :: slots) =
      version :: checkedVersions slots := rfl

/-- Slot `i` passes the checksum and holds version `version`. -/
def HoldsVersion (slots : List (Slot M)) (i : Nat) (version : Int) : Prop :=
  ∃ format metablock, slots[i]? = some (.valid format version metablock)

theorem mem_checkedVersions {slots : List (Slot M)} {version : Int}
    (mem : version ∈ checkedVersions slots) : ∃ i, HoldsVersion slots i version := by
  obtain ⟨slot, inSlots, checked⟩ := List.mem_filterMap.mp mem
  obtain ⟨i, stored⟩ := List.mem_iff_getElem?.mp inSlots
  cases slot with
  | corrupt => cases checked
  | valid format version' metablock =>
    simp only [Slot.checkedVersion, Option.some.injEq] at checked
    subst checked
    exact ⟨i, format, metablock, stored⟩

/-- Versions that increase with the slot index are in increasing order. -/
theorem checkedVersions_pairwise {slots : List (Slot M)}
    (increasing : ∀ i j vi vj, i < j → HoldsVersion slots i vi → HoldsVersion slots j vj →
      vi < vj) :
    (checkedVersions slots).Pairwise (· < ·) := by
  induction slots with
  | nil => exact List.Pairwise.nil
  | cons slot rest ih =>
    have later : ∀ i j vi vj, i < j → HoldsVersion rest i vi → HoldsVersion rest j vj →
        vi < vj :=
      fun i j vi vj lt atI atJ => increasing (i + 1) (j + 1) vi vj (Nat.succ_lt_succ lt) atI atJ
    cases slot with
    | corrupt => exact ih later
    | valid format version metablock =>
      rw [checkedVersions_valid, List.pairwise_cons]
      refine ⟨?_, ih later⟩
      intro v mem
      obtain ⟨i, stored⟩ := mem_checkedVersions mem
      exact increasing 0 (i + 1) version v (Nat.succ_pos i) ⟨format, metablock, rfl⟩ stored

/-- Every checksummed slot carries a disk format that `co_start_existing` recognizes. -/
def Recognized (slots : List (Slot M)) : Prop :=
  ∀ format version metablock, .valid format version metablock ∈ slots →
    diskFormatVersionIsRecognized format = true

theorem Recognized.tail {slot : Slot M} {slots : List (Slot M)}
    (recognized : Recognized (slot :: slots)) : Recognized slots :=
  fun format version metablock mem =>
    recognized format version metablock (List.mem_cons_of_mem slot mem)

/-- Over slots none of which is newer than what it holds, the loop of `co_start_existing`
ends without an error and with the version it held: at the first checksummed slot it
breaks, and the slots before it fail the checksum. -/
theorem scanSlots_of_not_newer (slots : Nat) (rest : List (Slot M)) :
    ∀ scan : Scan M, Recognized rest →
      (∀ v ∈ checkedVersions rest, v ≤ scan.latestVersion) →
      ∃ scan', scanSlots slots rest scan = .ok scan' ∧
        scan'.latestVersion = scan.latestVersion := by
  induction rest with
  | nil => exact fun scan _ _ => ⟨scan, rfl, rfl⟩
  | cons slot rest ih =>
    intro scan recognized notNewer
    cases slot with
    | corrupt =>
      obtain ⟨scan', scanned, same⟩ :=
        ih { scan with head := scan.head.increment slots } recognized.tail
          (by simpa using notNewer)
      exact ⟨scan', by rw [scanSlots]; exact scanned, same⟩
    | valid format version metablock =>
      have known := recognized format version metablock List.mem_cons_self
      have older : version ≤ scan.latestVersion := notNewer version (by simp)
      refine ⟨scan, ?_, rfl⟩
      simp [scanSlots, known, Int.not_lt.mpr older]

/-- The loop of `co_start_existing` accepts every checksummed slot of a run whose versions
increase past what it holds, and then stops at the first slot that is not newer than the
last of them: it ends holding that last version. -/
theorem scanSlots_append_of_increasing (slots : Nat) (rest accepted : List (Slot M)) :
    ∀ scan : Scan M, Recognized (accepted ++ rest) →
      (checkedVersions accepted).Pairwise (· < ·) →
      (∀ v ∈ checkedVersions accepted, scan.latestVersion < v) →
      (∀ v ∈ checkedVersions rest,
        v ≤ (checkedVersions accepted).getLast?.getD scan.latestVersion) →
      ∃ scan', scanSlots slots (accepted ++ rest) scan = .ok scan' ∧
        scan'.latestVersion = (checkedVersions accepted).getLast?.getD scan.latestVersion := by
  induction accepted with
  | nil =>
    intro scan recognized _ _ notNewer
    exact scanSlots_of_not_newer slots rest scan recognized notNewer
  | cons slot accepted ih =>
    intro scan recognized increasing newer notNewer
    cases slot with
    | corrupt =>
      obtain ⟨scan', scanned, latest⟩ :=
        ih { scan with head := scan.head.increment slots } recognized.tail
          (by simpa using increasing) (by simpa using newer) (by simpa using notNewer)
      exact ⟨scan', by rw [List.cons_append, scanSlots]; exact scanned, by simpa using latest⟩
    | valid format version metablock =>
      have known := recognized format version metablock List.mem_cons_self
      have fresh : scan.latestVersion < version := newer version (by simp)
      rw [checkedVersions_valid, List.pairwise_cons] at increasing
      -- the accepted slot becomes what the loop holds, and the rest of the run follows it
      obtain ⟨scan', scanned, latest⟩ :=
        ih ⟨version, (scan.head.push).increment slots, some (version, metablock)⟩
          recognized.tail increasing.2 increasing.1
          (by simpa [List.getLast?_cons] using notNewer)
      refine ⟨scan', ?_, by simpa [List.getLast?_cons] using latest⟩
      rw [List.cons_append, scanSlots]
      simp [known, fresh, scanned]

/-! ## The shape of the ring -/

/-- The ring as the writes of this code leave it: the newest block, of `version`, sits in
slot `newest`; going around the ring from the slot after it, the checksummed versions
increase, so the newest is the greatest; and every checksummed slot was written by this code,
with `LATEST_DISK` and a version from `MB_START_VERSION` on. -/
structure Ring (disk : List (Slot M)) (newest : Nat) (version : Int) (metablock : M) :
    Prop where
  newest_valid : disk[newest]? = some (.valid latestDisk version metablock)
  written : ∀ (i format : Nat) (v : Int) (m : M), disk[i]? = some (.valid format v m) →
    format = latestDisk ∧ mbStartVersion ≤ v
  increasing : ∀ i j vi vj, HoldsVersion disk i vi → HoldsVersion disk j vj →
    Before newest i j → vi < vj

namespace Ring

variable {disk : List (Slot M)} {newest : Nat} {version : Int} {metablock : M}

theorem start_le (ring : Ring disk newest version metablock) : mbStartVersion ≤ version :=
  (ring.written newest _ _ _ ring.newest_valid).2

/-- The newest block is the greatest. -/
theorem le_version (ring : Ring disk newest version metablock) {i format : Nat} {v : Int} {m : M}
    (stored : disk[i]? = some (.valid format v m)) : v ≤ version := by
  by_cases atNewest : i = newest
  · subst atNewest
    rw [ring.newest_valid] at stored
    simp only [Option.some.injEq, Slot.valid.injEq] at stored
    exact Int.le_of_eq stored.2.1.symm
  · exact Int.le_of_lt (ring.increasing i newest v version ⟨format, m, stored⟩
      ⟨_, _, ring.newest_valid⟩ (before_last atNewest))

/-- No other slot holds the newest version. -/
theorem eq_newest (ring : Ring disk newest version metablock) {i format : Nat} {m : M}
    (stored : disk[i]? = some (.valid format version m)) : i = newest ∧ m = metablock := by
  have atNewest : i = newest := by
    by_contra other
    exact Int.lt_irrefl version (ring.increasing i newest version version ⟨format, m, stored⟩
      ⟨_, _, ring.newest_valid⟩ (before_last other))
  subst atNewest
  rw [ring.newest_valid] at stored
  simp only [Option.some.injEq, Slot.valid.injEq] at stored
  exact ⟨rfl, stored.2.2.symm⟩

theorem recognized (ring : Ring disk newest version metablock) : Recognized disk := by
  intro format v m mem
  obtain ⟨i, stored⟩ := List.mem_iff_getElem?.mp mem
  rw [(ring.written i format v m stored).1]
  rfl

/-- Up to the newest block the versions increase with the slot index. -/
theorem increasing_prefix (ring : Ring disk newest version metablock) :
    (checkedVersions (disk.take (newest + 1))).Pairwise (· < ·) := by
  apply checkedVersions_pairwise
  intro i j vi vj lt ⟨fi, mi, atI⟩ ⟨fj, mj, atJ⟩
  rw [List.getElem?_take] at atI atJ
  split at atI
  · split at atJ
    · exact ring.increasing i j vi vj ⟨fi, mi, atI⟩ ⟨fj, mj, atJ⟩
        (before_of_lt lt (by omega))
    · cases atJ
  · cases atI

theorem prefix_newer (ring : Ring disk newest version metablock) :
    ∀ v ∈ checkedVersions (disk.take (newest + 1)), mbBadVersion < v := by
  intro v mem
  obtain ⟨i, format, m, stored⟩ := mem_checkedVersions mem
  rw [List.getElem?_take] at stored
  split at stored
  · have started := (ring.written i format v m stored).2
    unfold mbStartVersion at started
    unfold mbBadVersion
    omega
  · cases stored

theorem last_prefix (ring : Ring disk newest version metablock) :
    (checkedVersions (disk.take (newest + 1))).getLast? = some version := by
  rw [List.take_add_one, ring.newest_valid, Option.toList_some, checkedVersions,
    List.filterMap_append]
  simp [Slot.checkedVersion]

/-- Past the newest block every version is older. -/
theorem suffix_le (ring : Ring disk newest version metablock) :
    ∀ v ∈ checkedVersions (disk.drop (newest + 1)), v ≤ version := by
  intro v mem
  obtain ⟨i, format, m, stored⟩ := mem_checkedVersions mem
  rw [List.getElem?_drop] at stored
  exact ring.le_version stored

/-- **Recovery from a ring in shape.**  `co_start_existing` finds the newest block, returns
it with `mb_found`, puts the head back on its slot and numbers the next write after it. -/
theorem coStartExisting_found (ring : Ring disk newest version metablock) :
    ∃ head : Head,
      coStartExisting disk = .ok (some ⟨true, some (version, metablock), head, version + 1⟩) ∧
      head.mbSlot = newest := by
  -- the loop accepts the run up to the newest block and stops in the older slots after it
  obtain ⟨scan, scanned, latest⟩ :
      ∃ scan, scanSlots disk.length disk ⟨mbBadVersion, Head.init, none⟩ = .ok scan ∧
        scan.latestVersion = version := by
    have whole := List.take_append_drop (newest + 1) disk
    obtain ⟨scan, scanned, latest⟩ :=
      scanSlots_append_of_increasing disk.length (disk.drop (newest + 1))
        (disk.take (newest + 1)) ⟨mbBadVersion, Head.init, none⟩
        (by rw [whole]; exact ring.recognized) ring.increasing_prefix ring.prefix_newer
        (by rw [ring.last_prefix]; exact ring.suffix_le)
    rw [whole] at scanned
    rw [ring.last_prefix] at latest
    exact ⟨scan, scanned, latest⟩
  have notBad : version ≠ mbBadVersion := by
    have started := ring.start_le
    unfold mbStartVersion at started
    unfold mbBadVersion
    omega
  have invariant := scanSlots_inv disk disk 0 _ scan rfl (by simp [Head.init])
    (by simp [ScanInv, Head.init]) scanned
  unfold ScanInv at invariant
  split at invariant
  · exact absurd (by rw [← latest]; exact invariant.1) notBad
  · rename_i accepted m lastGood
    obtain ⟨sameVersion, slot, format, saved, stored⟩ := invariant
    rw [latest] at sameVersion
    subst sameVersion
    -- the saved slot holds the newest version, so it is the newest slot
    obtain ⟨atNewest, rfl⟩ := ring.eq_newest stored
    refine ⟨{ scan.head with mbSlot := slot, savedMbSlot := none }, ?_, atNewest⟩
    unfold coStartExisting
    rw [scanned]
    simp only [Head.pop, saved, Option.map_some, lastGood, latest, if_neg notBad]

/-- Writing the next version over slot `k` makes `k` the newest slot, provided that the slots
other than `k` keep their order around the ring. -/
theorem set_newer (ring : Ring disk newest version metablock) {k : Nat} (kLt : k < disk.length)
    (order : ∀ i j, i ≠ k → j ≠ k → i < disk.length → j < disk.length →
      Before k i j → Before newest i j) (mb : M) :
    Ring (disk.set k (.valid latestDisk (version + 1) mb)) k (version + 1) mb where
  newest_valid := List.getElem?_set_self kLt
  written := by
    intro i format v m stored
    by_cases atK : i = k
    · subst atK
      rw [List.getElem?_set_self kLt] at stored
      simp only [Option.some.injEq, Slot.valid.injEq] at stored
      obtain ⟨rfl, rfl, -⟩ := stored
      have started := ring.start_le
      exact ⟨rfl, by omega⟩
    · rw [List.getElem?_set_ne (Ne.symm atK)] at stored
      exact ring.written i format v m stored
  increasing := by
    intro i j vi vj ⟨fi, mi, atI⟩ ⟨fj, mj, atJ⟩ before
    by_cases iAtK : i = k
    · subst iAtK
      exact absurd before not_before_last
    rw [List.getElem?_set_ne (Ne.symm iAtK)] at atI
    by_cases jAtK : j = k
    · -- the new block is newer than every block left
      subst jAtK
      rw [List.getElem?_set_self kLt] at atJ
      simp only [Option.some.injEq, Slot.valid.injEq] at atJ
      have older := ring.le_version atI
      omega
    · rw [List.getElem?_set_ne (Ne.symm jAtK)] at atJ
      exact ring.increasing i j vi vj ⟨fi, mi, atI⟩ ⟨fj, mj, atJ⟩
        (order i j iAtK jAtK (List.getElem?_eq_some_iff.mp atI).1
          (List.getElem?_eq_some_iff.mp atJ).1 before)

/-- A torn write over a slot other than the newest only drops an old block. -/
theorem tear (ring : Ring disk newest version metablock) {k : Nat} (kNe : k ≠ newest) :
    Ring (disk.set k .corrupt) newest version metablock := by
  have kept : ∀ {i format : Nat} {v : Int} {m : M},
      (disk.set k .corrupt)[i]? = some (.valid format v m) →
      disk[i]? = some (.valid format v m) := by
    intro i format v m stored
    rw [List.getElem?_set] at stored
    split at stored
    · split at stored <;> cases stored
    · exact stored
  refine ⟨?_, ?_, ?_⟩
  · rw [List.getElem?_set_ne kNe]
    exact ring.newest_valid
  · exact fun i format v m stored => ring.written i format v m (kept stored)
  · exact fun i j vi vj ⟨fi, mi, atI⟩ ⟨fj, mj, atJ⟩ =>
      ring.increasing i j vi vj ⟨fi, mi, kept atI⟩ ⟨fj, mj, kept atJ⟩

end Ring

/-- `create` leaves the ring in shape, with its initial metablock the newest block. -/
theorem create_ring {extentSize : Nat} (initial : M)
    (positive : 0 < (initialMetablockOffsets extentSize).length) :
    Ring (create extentSize initial) 0 mbStartVersion initial := by
  -- every checksummed slot of `create` is slot `0`
  have only : ∀ {i format : Nat} {v : Int} {m : M},
      (create extentSize initial)[i]? = some (.valid format v m) →
      i = 0 ∧ format = latestDisk ∧ v = mbStartVersion := by
    intro i format v m stored
    rw [create, List.getElem?_set, List.getElem?_replicate] at stored
    split at stored
    · rename_i atZero
      split at stored
      · simp only [Option.some.injEq, Slot.valid.injEq] at stored
        exact ⟨atZero.symm, stored.1.symm, stored.2.1.symm⟩
      · cases stored
    · split at stored <;> cases stored
  refine ⟨?_, ?_, ?_⟩
  · rw [create]
    exact List.getElem?_set_self (by rw [List.length_replicate]; exact positive)
  · intro i format v m stored
    obtain ⟨-, rfl, rfl⟩ := only stored
    exact ⟨rfl, Int.le_refl _⟩
  · intro i j vi vj ⟨_, _, atI⟩ ⟨_, _, atJ⟩ before
    obtain ⟨rfl, -, -⟩ := only atI
    obtain ⟨rfl, -, -⟩ := only atJ
    exact absurd before not_before_last

/-! ## Histories -/

/-- Whether an event is a start. -/
def Event.isStart : Event M → Bool
  | .start => true
  | _ => false

/-- What holds of the system after a history, with `justStarted` whether its last event was a
start: the ring is in shape around its newest block; that block is at least as new as the
last write that returned, and is that write's block when of its version; and a running
manager will write the next version, over the newest block right after a start and into the
slot after it otherwise. -/
structure Recoverable (system : System M) (justStarted : Bool) (newest : Nat) (version : Int)
    (metablock : M) : Prop where
  ring : Ring system.disk newest version metablock
  two_slots : 2 ≤ system.disk.length
  completed_le : system.lastCompleted.1 ≤ version
  completed_eq : system.lastCompleted.1 = version → system.lastCompleted.2 = metablock
  manager : ∀ m, system.manager = some m → m.nextVersionNumber = version + 1 ∧
    m.head.mbSlot = if justStarted then newest else next system.disk.length newest

namespace Recoverable

variable {system system' : System M} {justStarted : Bool} {newest : Nat} {version : Int}
  {metablock : M}

theorem created {extentSize : Nat} (initial : M)
    (twoSlots : 2 ≤ (initialMetablockOffsets extentSize).length) :
    Recoverable (System.created extentSize initial) false 0 mbStartVersion initial where
  ring := create_ring initial (by omega)
  two_slots := by simpa [System.created, create] using twoSlots
  completed_le := Int.le_refl _
  completed_eq := fun _ => rfl
  manager := fun _ running => by cases running

/-- Without a manager nothing depends on the last event. -/
theorem stop (recoverable : Recoverable system justStarted newest version metablock)
    (justStarted' : Bool) :
    Recoverable { system with manager := none } justStarted' newest version metablock :=
  ⟨recoverable.ring, recoverable.two_slots, recoverable.completed_le,
    recoverable.completed_eq, fun _ running => by cases running⟩

/-- The slot a running manager writes. -/
theorem head_lt (recoverable : Recoverable system justStarted newest version metablock)
    {m : Manager} (running : system.manager = some m) : m.head.mbSlot < system.disk.length := by
  rw [(recoverable.manager m running).2]
  split
  · exact (List.getElem?_eq_some_iff.mp recoverable.ring.newest_valid).1
  · exact next_lt (by have := recoverable.two_slots; omega)

/-- The block a running manager writes is the newest of the ring, wherever the head is. -/
theorem ring_written (recoverable : Recoverable system justStarted newest version metablock)
    {m : Manager} (running : system.manager = some m) (mb : M) :
    Ring (system.disk.set m.head.mbSlot (m.prepared mb)) m.head.mbSlot (version + 1) mb := by
  obtain ⟨numbered, atHead⟩ := recoverable.manager m running
  rw [Manager.prepared, numbered]
  apply recoverable.ring.set_newer (recoverable.head_lt running)
  rw [atHead]
  cases justStarted with
  | true => exact fun _ _ _ _ _ _ before => before
  | false =>
    -- the head is on the slot after the newest: the oldest block is overwritten
    exact fun i j iNe jNe iLt jLt before =>
      (before_next_iff (List.getElem?_eq_some_iff.mp recoverable.ring.newest_valid).1 iLt jLt
        iNe jNe).mp before

theorem start (recoverable : Recoverable system justStarted newest version metablock)
    (stepped : system.step .start = some system') :
    Recoverable system' true newest version metablock := by
  obtain ⟨head, started, atNewest⟩ := recoverable.ring.coStartExisting_found
  rw [System.step, started] at stepped
  split at stepped
  · rename_i _ found
    simp only [Except.ok.injEq, Option.some.injEq] at found
    subst found
    cases stepped
    refine ⟨recoverable.ring, recoverable.two_slots, recoverable.completed_le,
      recoverable.completed_eq, ?_⟩
    intro m running
    simp only [Option.some.injEq] at running
    subst running
    exact ⟨rfl, by rw [if_pos rfl]; exact atNewest⟩
  · cases stepped

theorem write (recoverable : Recoverable system justStarted newest version metablock)
    {m : Manager} (running : system.manager = some m) (mb : M) :
    Recoverable ⟨system.disk.set m.head.mbSlot (m.prepared mb),
      some ⟨m.head.increment system.disk.length, m.nextVersionNumber + 1⟩,
      (m.nextVersionNumber, mb)⟩ false m.head.mbSlot (version + 1) mb := by
  obtain ⟨numbered, -⟩ := recoverable.manager m running
  refine ⟨recoverable.ring_written running mb, ?_, ?_, ?_, ?_⟩
  · rw [List.length_set]
    exact recoverable.two_slots
  · exact Int.le_of_eq numbered
  · exact fun _ => rfl
  · intro m' started
    simp only [Option.some.injEq] at started
    subst started
    refine ⟨by rw [numbered], ?_⟩
    rw [List.length_set, Head.increment_mbSlot, if_neg Bool.false_ne_true]
    rfl

theorem crashWriting (recoverable : Recoverable system justStarted newest version metablock)
    {m : Manager} (running : system.manager = some m) (mb : M) (outcome : WriteOutcome)
    (notTorn : justStarted = true → outcome ≠ .torn) :
    ∃ newest' version' metablock', Recoverable
      { system with
        disk := system.disk.set m.head.mbSlot
          (outcome.result (system.disk.getD m.head.mbSlot .corrupt) (m.prepared mb))
        manager := none } false newest' version' metablock' := by
  have headLt := recoverable.head_lt running
  cases outcome with
  | unchanged =>
    refine ⟨newest, version, metablock, ?_⟩
    simp only [WriteOutcome.result]
    rw [List.getD_eq_getElem _ _ headLt, List.set_getElem_self headLt]
    exact recoverable.stop false
  | written =>
    -- the block is on disk although the write never returned
    refine ⟨m.head.mbSlot, version + 1, mb, recoverable.ring_written running mb, ?_, ?_, ?_, ?_⟩
    · rw [List.length_set]
      exact recoverable.two_slots
    · exact Int.le_of_lt (Int.lt_of_le_of_lt recoverable.completed_le (Int.lt_succ version))
    · intro same
      have := recoverable.completed_le
      simp only at same
      omega
    · exact fun _ running' => by cases running'
  | torn =>
    have afterWrite : justStarted = false := by
      cases justStarted with
      | false => rfl
      | true => exact absurd rfl (notTorn rfl)
    have atNext : m.head.mbSlot = next system.disk.length newest := by
      rw [(recoverable.manager m running).2, afterWrite]
      rfl
    have notNewest : m.head.mbSlot ≠ newest := by
      rw [atNext]
      exact next_ne recoverable.two_slots
        (List.getElem?_eq_some_iff.mp recoverable.ring.newest_valid).1
    refine ⟨newest, version, metablock, recoverable.ring.tear notNewest, ?_, ?_, ?_, ?_⟩
    · rw [List.length_set]
      exact recoverable.two_slots
    · exact recoverable.completed_le
    · exact recoverable.completed_eq
    · exact fun _ running' => by cases running'

/-- One event keeps the system recoverable, unless it is a torn write right after a start. -/
theorem step (recoverable : Recoverable system justStarted newest version metablock)
    {event : Event M} (notTorn : justStarted = true → ∀ mb, event ≠ .crashWriting mb .torn)
    (stepped : system.step event = some system') :
    ∃ newest' version' metablock',
      Recoverable system' event.isStart newest' version' metablock' := by
  cases event with
  | start => exact ⟨newest, version, metablock, recoverable.start stepped⟩
  | write mb =>
    cases running : system.manager with
    | none => simp [System.step, running] at stepped
    | some m =>
      simp only [System.step, running, Option.map_some, Option.some.injEq,
        Manager.coWriteMetablock] at stepped
      subst stepped
      exact ⟨_, _, _, recoverable.write running mb⟩
  | crashWriting mb outcome =>
    cases running : system.manager with
    | none => simp [System.step, running] at stepped
    | some m =>
      simp only [System.step, running, Option.map_some, Option.some.injEq] at stepped
      subst stepped
      exact recoverable.crashWriting running mb outcome fun started torn =>
        notTorn started mb (by rw [torn])
  | crash =>
    simp only [System.step, Option.some.injEq] at stepped
    subst stepped
    exact ⟨newest, version, metablock, recoverable.stop false⟩

/-- A whole history keeps the system recoverable when no torn write follows a start. -/
theorem run (events : List (Event M)) :
    ∀ {system system' : System M} {justStarted : Bool} {newest : Nat} {version : Int}
      {metablock : M}, Recoverable system justStarted newest version metablock →
      (justStarted = true → ∀ mb, events.head? ≠ some (.crashWriting mb .torn)) →
      (∀ i mb, events[i]? = some .start → events[i + 1]? ≠ some (.crashWriting mb .torn)) →
      system.run events = some system' →
      ∃ justStarted' newest' version' metablock',
        Recoverable system' justStarted' newest' version' metablock' := by
  induction events with
  | nil =>
    intro system system' justStarted newest version metablock recoverable _ _ ran
    simp only [System.run, Option.some.injEq] at ran
    subst ran
    exact ⟨justStarted, newest, version, metablock, recoverable⟩
  | cons event rest ih =>
    intro system system' justStarted newest version metablock recoverable first safe ran
    rw [System.run] at ran
    cases stepped : system.step event with
    | none => rw [stepped] at ran; cases ran
    | some next =>
      rw [stepped, Option.bind_some] at ran
      obtain ⟨newest', version', metablock', recoverable'⟩ :=
        recoverable.step (fun started mb torn => first started mb (by rw [torn]; rfl)) stepped
      -- after a start, the next event is the first of the rest
      have first' : event.isStart = true →
          ∀ mb, rest.head? ≠ some (.crashWriting mb .torn) := by
        intro started mb
        cases event with
        | start => rw [List.head?_eq_getElem?]; exact safe 0 mb rfl
        | write _ => cases started
        | crashWriting _ _ => cases started
        | crash => cases started
      exact ih recoverable' first' (fun i mb started => safe (i + 1) mb started) ran

end Recoverable

/-- **No write that returned is lost, except by a torn write right after a start.**  In a ring
of two slots or more, after any history from `create` in which the write right after a start
is not torn: `co_start_existing` finds a metablock; it is at least as new as the last
`co_write_metablock` that returned, and is that write's metablock when of its version; the
version it numbers the next write with is above every version in the ring; and a running
manager's `next_version_number` is above every version in the ring too, so no write reuses a
version that is on disk. -/
theorem recovery_keeps_completed_write {extentSize : Nat} (initial : M)
    (twoSlots : 2 ≤ (initialMetablockOffsets extentSize).length) {events : List (Event M)}
    (notTornAfterStart : ∀ i mb, events[i]? = some .start →
      events[i + 1]? ≠ some (.crashWriting mb .torn))
    {system : System M} (ran : (System.created extentSize initial).run events = some system) :
    ∃ started : Started M, ∃ version : Int, ∃ metablock : M,
      coStartExisting system.disk = .ok (some started) ∧ started.mbFound = true ∧
      started.mbOut = some (version, metablock) ∧
      system.lastCompleted.1 ≤ version ∧
      (version = system.lastCompleted.1 → metablock = system.lastCompleted.2) ∧
      (∀ i v, HoldsVersion system.disk i v → v < started.nextVersionNumber) ∧
      ∀ manager, system.manager = some manager →
        ∀ i v, HoldsVersion system.disk i v → v < manager.nextVersionNumber := by
  obtain ⟨_, newest, version, metablock, recoverable⟩ :=
    Recoverable.run events (Recoverable.created initial twoSlots) (fun started => by cases started)
      notTornAfterStart ran
  obtain ⟨head, started, -⟩ := recoverable.ring.coStartExisting_found
  refine ⟨_, version, metablock, started, rfl, rfl, recoverable.completed_le,
    fun same => (recoverable.completed_eq same.symm).symm, ?_, ?_⟩
  · intro i v ⟨format, mb, stored⟩
    have older := recoverable.ring.le_version stored
    show v < version + 1
    omega
  · intro manager running i v ⟨format, mb, stored⟩
    have older := recoverable.ring.le_version stored
    rw [(recoverable.manager manager running).1]
    omega

/-- A write torn after another write loses nothing: after a start and a write, the crash in
the next write tears the slot after the newest block, and a start still finds the write that
returned. -/
theorem torn_write_after_write_keeps_completed :
    ∃ system : System Nat,
      (System.created 32768 (0 : Nat)).run [.start, .write 1, .crashWriting 2 .torn] =
        some system ∧
      ∃ started : Started Nat, ∃ version : Int, ∃ metablock : Nat,
        coStartExisting system.disk = .ok (some started) ∧ started.mbFound = true ∧
        started.mbOut = some (version, metablock) ∧
        system.lastCompleted.1 ≤ version ∧
        (version = system.lastCompleted.1 → metablock = system.lastCompleted.2) ∧
        (∀ i v, HoldsVersion system.disk i v → v < started.nextVersionNumber) ∧
        ∀ manager, system.manager = some manager →
          ∀ i v, HoldsVersion system.disk i v → v < manager.nextVersionNumber := by
  have notTornAfterStart : ∀ i (mb : Nat),
      ([.start, .write 1, .crashWriting 2 .torn] : List (Event Nat))[i]? = some .start →
      ([.start, .write 1, .crashWriting 2 .torn] : List (Event Nat))[i + 1]? ≠
        some (.crashWriting mb .torn) := by
    intro i mb started
    rcases i with _ | _ | _ | i <;> simp_all
  have twoSlots : 2 ≤ (initialMetablockOffsets 32768).length := by decide
  exact ⟨_, rfl, recovery_keeps_completed_write 0 twoSlots notTornAfterStart rfl⟩

end Serializer
end RethinkDB
