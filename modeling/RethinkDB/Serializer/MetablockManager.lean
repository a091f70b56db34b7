import Mathlib.Data.List.Basic
import Mathlib.Tactic.Common

namespace RethinkDB
namespace Serializer

/-!
# The metablock ring of the log serializer

The log serializer keeps its root pointers in a small ring of metablock slots at the
start of the file (`serializer/log/metablock_manager.cc`).  Every slot holds either a
`crc_metablock_t` whose checksum matches, or bytes whose checksum does not: a slot
wiped by `create`, or one whose multi-sector write was torn by a crash.

`co_start_existing` reads every slot, keeps the longest run of strictly increasing
versions from slot `0` (stepping over slots that fail the checksum), and positions
the write head with `head_t::push` / `head_t::pop`.  `co_write_metablock` then writes
the next version at the head and advances it.

A slot is modelled by its index; the byte offset `initial_metablock_offsets` assigns
to it only locates the slot in the file.  The checksum is modelled by the two slot
constructors: `Slot.valid` is a block that `check_crc` accepts.
-/

/-- `METABLOCK_SIZE`, the size of one slot. -/
def metablockSize : Nat := 4 * 1024

/-- `MB_BLOCKS_PER_EXTENT`. -/
def mbBlocksPerExtent : Nat := 8

/-- `MB_BAD_VERSION`, the version recovery starts from. -/
def mbBadVersion : Int := -1

/-- `MB_START_VERSION`, the version `create` writes. -/
def mbStartVersion : Int := 1

/-- `cluster_version_t::LATEST_DISK` (`v2_0`), stamped on every metablock written. -/
def latestDisk : Nat := 5

/-- The byte offsets of the slots.  The first `DEVICE_BLOCK_SIZE` of the file holds
the static header, so the slots start at index `1` of the first extent. -/
def initialMetablockOffsets (extentSize : Nat) : List Nat :=
  (List.range' 1 (min (extentSize / metablockSize) mbBlocksPerExtent - 1)).map
    (· * metablockSize)

/-- `disk_format_version_is_recognized`: `v1_13`, `v1_14`, `v1_15`, `v1_16` and
`v2_0`.  Note that `v1_13_2` (`1`) is not among them. -/
def diskFormatVersionIsRecognized (diskFormatVersion : Nat) : Bool :=
  diskFormatVersion = 0 || diskFormatVersion = 2 || diskFormatVersion = 3 ||
    diskFormatVersion = 4 || diskFormatVersion = 5

/-- The contents of one metablock slot.  `corrupt` fails `check_crc`; `valid` is a
`crc_metablock_t` with a matching checksum. -/
inductive Slot (M : Type) where
  | corrupt
  | valid (diskFormatVersion : Nat) (version : Int) (metablock : M)
  deriving DecidableEq, Repr

/-! ## The write head -/

/-- `metablock_manager_t::head_t`.  `savedMbSlot = none` stands for the sentinel
`static_cast<uint32_t>(-1)`. -/
structure Head where
  mbSlot : Nat
  savedMbSlot : Option Nat
  wraparound : Bool
  deriving DecidableEq, Repr

namespace Head

/-- The head of a fresh manager. -/
def init : Head := ⟨0, none, false⟩

/-- `head_t::operator++` over a ring of `slots` slots. -/
def increment (slots : Nat) (head : Head) : Head :=
  if head.mbSlot + 1 ≥ slots then { head with mbSlot := 0, wraparound := true }
  else { head with mbSlot := head.mbSlot + 1, wraparound := false }

/-- `head_t::push`: remember the current slot. -/
def push (head : Head) : Head := { head with savedMbSlot := some head.mbSlot }

/-- `head_t::pop`; `none` is the failed `guarantee` on popping without a saved slot. -/
def pop (head : Head) : Option Head :=
  head.savedMbSlot.map fun saved => { head with mbSlot := saved, savedMbSlot := none }

@[simp] theorem push_mbSlot (head : Head) : head.push.mbSlot = head.mbSlot := rfl

@[simp] theorem push_savedMbSlot (head : Head) : head.push.savedMbSlot = some head.mbSlot := rfl

@[simp] theorem increment_savedMbSlot (slots : Nat) (head : Head) :
    (head.increment slots).savedMbSlot = head.savedMbSlot := by
  unfold increment
  split <;> rfl

theorem increment_mbSlot (slots : Nat) (head : Head) :
    (head.increment slots).mbSlot = if head.mbSlot + 1 ≥ slots then 0 else head.mbSlot + 1 := by
  unfold increment
  split <;> rfl

/-- Stepping through the ring from a slot below its size stays below its size. -/
theorem increment_mbSlot_lt {slots : Nat} {head : Head} (positive : 0 < slots) :
    (head.increment slots).mbSlot < slots := by
  rw [increment_mbSlot]
  split <;> omega

end Head

/-! ## Recovery -/

/-- The state of the loop in `co_start_existing`: `latest_version`, the head and
`last_good_mb` (its version and metablock). -/
structure Scan (M : Type) where
  latestVersion : Int
  head : Head
  lastGoodMb : Option (Int × M)

/-- Why `co_start_existing` gives up: `fail_due_to_user_error` on a checksummed
metablock whose disk format version is not recognized. -/
inductive StartError where
  | dataVersionNotRecognized (diskFormatVersion : Nat)
  deriving DecidableEq, Repr

/-- The loop of `co_start_existing` over the slots read from disk, in slot order.
A checksummed slot with a higher version is accepted (`head.push(); ++head`); a
checksummed slot that does not increase the version ends the loop (`break`); a slot
that fails the checksum only advances the head. -/
def scanSlots {M : Type} (slots : Nat) : List (Slot M) → Scan M → Except StartError (Scan M)
  | [], scan => .ok scan
  | .corrupt :: rest, scan =>
      scanSlots slots rest { scan with head := scan.head.increment slots }
  | .valid diskFormatVersion version metablock :: rest, scan =>
      if !diskFormatVersionIsRecognized diskFormatVersion then
        .error (.dataVersionNotRecognized diskFormatVersion)
      else if version > scan.latestVersion then
        scanSlots slots rest
          ⟨version, (scan.head.push).increment slots, some (version, metablock)⟩
      else .ok scan

/-- What `co_start_existing` leaves behind: `mb_found`, the metablock copied to
`mb_out` with its version, the positioned head and `next_version_number`. -/
structure Started (M : Type) where
  mbFound : Bool
  mbOut : Option (Int × M)
  head : Head
  nextVersionNumber : Int

/-- `co_start_existing` on a fresh manager (head at slot `0`, nothing saved).
`none` in the found branch is the failed `guarantee` of `head_t::pop`. -/
def coStartExisting {M : Type} (disk : List (Slot M)) : Except StartError (Option (Started M)) :=
  match scanSlots disk.length disk ⟨mbBadVersion, Head.init, none⟩ with
  | .error e => .error e
  | .ok scan =>
      if scan.latestVersion = mbBadVersion then
        .ok (some ⟨false, none, scan.head, mbStartVersion⟩)
      else
        .ok (scan.head.pop.map fun head =>
          ⟨true, scan.lastGoodMb, head, scan.latestVersion + 1⟩)

/-- What the loop of `co_start_existing` knows about the slots behind it: either nothing
was accepted yet, or `latest_version` is the version of `last_good_mb` and the saved
head slot holds exactly that block. -/
def ScanInv {M : Type} (disk : List (Slot M)) (scan : Scan M) : Prop :=
  match scan.lastGoodMb with
  | none => scan.latestVersion = mbBadVersion ∧ scan.head.savedMbSlot = none
  | some (version, metablock) =>
      scan.latestVersion = version ∧
        ∃ slot format, scan.head.savedMbSlot = some slot ∧
          disk[slot]? = some (.valid format version metablock)

/-- Stepping over a corrupt slot does not touch what the loop has accepted. -/
theorem ScanInv.increment {M : Type} {disk : List (Slot M)} {scan : Scan M} (slots : Nat)
    (invariant : ScanInv disk scan) :
    ScanInv disk { scan with head := scan.head.increment slots } := by
  rcases scan with ⟨latest, head, _ | ⟨version, metablock⟩⟩ <;>
    simpa [ScanInv] using invariant

/-- The slot the loop reads is in the ring. -/
private theorem index_lt_of_drop_eq_cons {M : Type} {disk rest : List (Slot M)} {slot : Slot M}
    {index : Nat} (suffix : disk.drop index = slot :: rest) : index < disk.length := by
  have nonempty : disk.drop index ≠ [] := by simp [suffix]
  rw [Ne, List.drop_eq_nil_iff] at nonempty
  omega

/-- The head follows the slot index around the ring. -/
private theorem increment_mbSlot_mod {head : Head} {index slots : Nat}
    (position : head.mbSlot = index % slots) (inRange : index < slots) :
    (head.increment slots).mbSlot = (index + 1) % slots := by
  rw [Head.increment_mbSlot, position, Nat.mod_eq_of_lt inRange]
  split
  · have last : index + 1 = slots := by omega
    rw [last, Nat.mod_self]
  · rw [Nat.mod_eq_of_lt (by omega)]

/-- One pass of the loop keeps `ScanInv`, as long as the head names the slot being
read: the loop reads slot `index` while the head is at `index % slots`. -/
theorem scanSlots_inv {M : Type} (disk : List (Slot M)) :
    ∀ (rest : List (Slot M)) (index : Nat) (scan scan' : Scan M),
      disk.drop index = rest → scan.head.mbSlot = index % disk.length →
      ScanInv disk scan → scanSlots disk.length rest scan = .ok scan' → ScanInv disk scan'
  | [], _, scan, scan', _, _, invariant, done => by
      simp only [scanSlots, Except.ok.injEq] at done
      exact done ▸ invariant
  | .corrupt :: rest, index, scan, scan', suffix, position, invariant, done => by
      have inRange := index_lt_of_drop_eq_cons suffix
      apply scanSlots_inv disk rest (index + 1) _ scan' _ _ (invariant.increment _) done
      · rw [← List.drop_drop, suffix, List.drop_one, List.tail_cons]
      · exact increment_mbSlot_mod position inRange
  | .valid format version metablock :: rest, index, scan, scan', suffix, position, invariant,
      done => by
      have inRange := index_lt_of_drop_eq_cons suffix
      have stored : disk[index]? = some (.valid format version metablock) := by
        rw [← List.head?_drop, suffix, List.head?_cons]
      simp only [scanSlots] at done
      split at done
      · cases done
      split at done
      · apply scanSlots_inv disk rest (index + 1) _ scan' _ _ _ done
        · rw [← List.drop_drop, suffix, List.drop_one, List.tail_cons]
        · exact increment_mbSlot_mod (by rw [Head.push_mbSlot]; exact position) inRange
        · refine ⟨rfl, index, format, ?_, stored⟩
          simp [position, Nat.mod_eq_of_lt inRange]
      · simp only [Except.ok.injEq] at done
        exact done ▸ invariant

/-- **Where recovery leaves the head.**  Whenever `co_start_existing` finds a metablock,
`head_t::pop` puts the head back on the very slot that holds it; the next
`co_write_metablock` writes into that slot. -/
theorem coStartExisting_head_at_recovered {M : Type} {disk : List (Slot M)}
    {started : Started M} (start : coStartExisting disk = .ok (some started))
    (found : started.mbFound = true) :
    ∃ format version metablock, started.mbOut = some (version, metablock) ∧
      disk[started.head.mbSlot]? = some (.valid format version metablock) := by
  unfold coStartExisting at start
  split at start
  · cases start
  rename_i scan scanned
  have invariant := scanSlots_inv disk disk 0 _ scan rfl (by simp [Head.init])
    (by simp [ScanInv, Head.init]) scanned
  split at start
  · simp only [Except.ok.injEq, Option.some.injEq] at start
    rw [← start] at found
    cases found
  · rename_i notBad
    simp only [Except.ok.injEq, Option.map_eq_some_iff] at start
    obtain ⟨head, popped, rfl⟩ := start
    unfold ScanInv at invariant
    split at invariant
    · exact absurd invariant.1 notBad
    · rename_i version metablock lastGood
      obtain ⟨-, slot, format, saved, stored⟩ := invariant
      simp only [Head.pop, saved, Option.map_some, Option.some.injEq] at popped
      exact ⟨format, version, metablock, lastGood, by rw [← popped]; exact stored⟩

/-! ## Writing, crashing and restarting -/

/-- A started manager: its head and `next_version_number`. -/
structure Manager where
  head : Head
  nextVersionNumber : Int
  deriving DecidableEq, Repr

/-- `metablock_manager_t::create`: wipe every slot (the zeroed blocks fail the
checksum), then write the initial metablock with `MB_START_VERSION` in slot `0`. -/
def create {M : Type} (extentSize : Nat) (initial : M) : List (Slot M) :=
  (List.replicate (initialMetablockOffsets extentSize).length Slot.corrupt).set 0
    (.valid latestDisk mbStartVersion initial)

/-- The block `co_write_metablock` prepares: `mb_buffer->prepare(LATEST_DISK, mb,
next_version_number)`. -/
def Manager.prepared {M : Type} (manager : Manager) (mb : M) : Slot M :=
  .valid latestDisk manager.nextVersionNumber mb

/-- `co_write_metablock` once its write has completed: the prepared block is in the
head's slot, the version counter and the head have moved on. -/
def Manager.coWriteMetablock {M : Type} (manager : Manager) (disk : List (Slot M)) (mb : M) :
    Manager × List (Slot M) :=
  (⟨manager.head.increment disk.length, manager.nextVersionNumber + 1⟩,
    disk.set manager.head.mbSlot (manager.prepared mb))

/-- What a crash leaves in the slot being written: the old block, the whole new
block, or a torn block that fails the checksum. -/
inductive WriteOutcome where
  | unchanged
  | written
  | torn
  deriving DecidableEq, Repr

/-- The slot after a crash during a write of `block` over `old`. -/
def WriteOutcome.result {M : Type} (old block : Slot M) : WriteOutcome → Slot M
  | .unchanged => old
  | .written => block
  | .torn => .corrupt

/-- The file's slots, the running manager (none after a crash, until the next
`co_start_existing`) and, as a record of the history, the version and metablock of the
last `co_write_metablock` that returned (`create`'s metablock before any). -/
structure System (M : Type) where
  disk : List (Slot M)
  manager : Option Manager
  lastCompleted : Int × M

/-- The system right after `create`, before any start. -/
def System.created {M : Type} (extentSize : Nat) (initial : M) : System M :=
  ⟨create extentSize initial, none, (mbStartVersion, initial)⟩

/-- The calls and failures a history is made of. -/
inductive Event (M : Type) where
  | start
  | write (mb : M)
  | crashWriting (mb : M) (outcome : WriteOutcome)
  | crash

/-- One event.  `start` needs a fresh manager and a successful `co_start_existing`;
`write` and `crashWriting` need a started manager. -/
def System.step {M : Type} (system : System M) : Event M → Option (System M)
  | .start =>
      match system.manager, coStartExisting system.disk with
      | none, .ok (some started) =>
          some { system with manager := some ⟨started.head, started.nextVersionNumber⟩ }
      | _, _ => none
  | .write mb =>
      system.manager.map fun manager =>
        let (next, disk) := manager.coWriteMetablock system.disk mb
        ⟨disk, some next, (manager.nextVersionNumber, mb)⟩
  | .crashWriting mb outcome =>
      system.manager.map fun manager =>
        { system with
          disk := system.disk.set manager.head.mbSlot
            (outcome.result (system.disk.getD manager.head.mbSlot .corrupt) (manager.prepared mb))
          manager := none }
  | .crash => some { system with manager := none }

/-- A history of events, stopping at the first one that is not possible. -/
def System.run {M : Type} (system : System M) : List (Event M) → Option (System M)
  | [] => some system
  | event :: rest => (system.step event).bind fun next => next.run rest

/-- A restart after a completed write, followed by a torn write: with a ring of seven
slots (`extent_size` of 32 KiB), `create` puts version `1` in slot `0`, the first start
writes version `2` over it, and after the crash the restart puts the head back on slot
`0`.  Tearing that write leaves no checksummed slot, so the next `co_start_existing`
reports `mb_found = false` although version `2` was completely written. -/
theorem torn_write_after_restart_loses_completed :
    ((System.created 32768 (0 : Nat)).run
        [.start, .write 1, .crash, .start, .crashWriting 2 .torn]).map
      (fun system => (system.lastCompleted,
        (coStartExisting system.disk).toOption.bind (Option.map Started.mbFound))) =
      some ((2, 1), some false) := by
  decide

end Serializer
end RethinkDB
