import Mathlib

/-!
# Block ids of the serializer multiplexer

`serializer/translator.cc` cuts each serializer file into the slices of several proxies
(`translator_serializer_t`).  Proxy `k` of `n_proxies` lives on file `k % n_files`, as the
`mod_id = k / n_files`-th of the `mod_count = compute_mod_count(..)` proxies there, and its
block `id` is block `id * mod_count + mod_id + 1` of the file, block 0 being the
configuration block.  Block ids are `block_id_t`, a `uint64_t`, so this arithmetic wraps;
`mod_count`, `mod_id`, `n_files` and `n_proxies` are `int`s, kept as natural numbers.

`max_block_id` moves the file's maximum block id into the slice as an `int64_t`, rounds it up
to the slice with `while (x % mod_count != mod_id) x++`, and then lowers it past the deleted
blocks at the top.  The rounding loop is run with `mod_count` rounds, which is all it ever
needs, and without the `int64_t` overflow of `x++` (which only an inner maximum within
`mod_count` of `2^63` could reach).
-/

namespace RethinkDB
namespace Serializer

/-- `compute_mod_count`: how many of `n_slices` slices are on file `file_number` when slice `n`
is on file `n % n_files`. -/
def computeModCount (fileNumber nFiles nSlices : Nat) : Nat :=
  nSlices / nFiles + if nSlices % nFiles > fileNumber then 1 else 0

/-- `config_block_id_t`. -/
structure ConfigBlockId where
  serId : UInt64
  deriving DecidableEq

/-- `config_block_id_t::subsequent_ser_id`: the first block after the configuration block. -/
def ConfigBlockId.subsequentSerId (cfgid : ConfigBlockId) : UInt64 := cfgid.serId + 1

/-- `CONFIG_BLOCK_ID`, `config_block_id_t::make(0)`. -/
def configBlockId : ConfigBlockId := ⟨0⟩

/-- `translator_serializer_t`: the slice of a proxy in its file. -/
structure Translator where
  modCount : Nat
  modId : Nat
  cfgid : ConfigBlockId
  deriving DecidableEq

/-- What the constructor of `translator_serializer_t` asserts, `mod_count` being an `int`. -/
structure Translator.Valid (t : Translator) : Prop where
  modId_lt : t.modId < t.modCount
  modCount_lt : t.modCount < 2 ^ 31

/-- The proxies the loop of `create_proxies` makes on file `j`: each `k < n_proxies` with
`k % n_files = j`, with `k`. -/
def createProxies (nFiles nProxies j : Nat) : List (Nat × Translator) :=
  let numOnThisSerializer := computeModCount j nFiles nProxies
  (List.range nProxies).filterMap fun k =>
    if k % nFiles ≠ j then none else some (k, ⟨numOnThisSerializer, k / nFiles, configBlockId⟩)

/-- `translate_block_id(id, mod_count, mod_id, cfgid)`. -/
def translateBlockId (id : UInt64) (modCount modId : Nat) (cfgid : ConfigBlockId) : UInt64 :=
  id * UInt64.ofNat modCount + UInt64.ofNat modId + cfgid.subsequentSerId

/-- `untranslate_block_id_to_mod_id`. -/
def untranslateBlockIdToModId (innerId : UInt64) (modCount : Nat) (cfgid : ConfigBlockId) : Nat :=
  ((innerId - cfgid.subsequentSerId) % UInt64.ofNat modCount).toNat

/-- `untranslate_block_id_to_id`. -/
def untranslateBlockIdToId (innerId : UInt64) (modCount modId : Nat) (cfgid : ConfigBlockId) :
    UInt64 :=
  (innerId - cfgid.subsequentSerId - UInt64.ofNat modId) / UInt64.ofNat modCount

/-- `translator_serializer_t::translate_block_id(id)`. -/
def Translator.translateBlockId (t : Translator) (id : UInt64) : UInt64 :=
  Serializer.translateBlockId id t.modCount t.modId t.cfgid

/-- The loop `while (x % mod_count != mod_id) x++`, for at most `fuel` rounds. -/
def roundUpToSlice (modCount modId : Nat) : Nat → Nat → Nat
  | 0, x => x
  | fuel + 1, x => if x % modCount ≠ modId then roundUpToSlice modCount modId fuel (x + 1) else x

/-- The first part of `translator_serializer_t::max_block_id`: the inner maximum moved into
the slice as an `int64_t`, `0` if that is not positive, and otherwise rounded up to a block of
the slice. -/
def Translator.roundedMaxBlockId (t : Translator) (innerMaxBlockId : UInt64) : UInt64 :=
  let x : Int := (innerMaxBlockId - t.cfgid.subsequentSerId).toInt64.toInt
  if x ≤ 0 then 0
  else UInt64.ofNat (roundUpToSlice t.modCount t.modId t.modCount x.toNat / t.modCount)

/-- The second loop of `max_block_id`: down past the blocks whose delete bit is set. -/
def trimDeleted (getDeleteBit : UInt64 → Bool) : Nat → Nat
  | 0 => 0
  | x + 1 => if !getDeleteBit (UInt64.ofNat x) then x + 1 else trimDeleted getDeleteBit x

/-- `translator_serializer_t::max_block_id`, with the inner serializer's maximum block id and
delete bits. -/
def Translator.maxBlockId (t : Translator) (innerMaxBlockId : UInt64)
    (getDeleteBit : UInt64 → Bool) : UInt64 :=
  UInt64.ofNat (trimDeleted (fun id => getDeleteBit (t.translateBlockId id))
    (t.roundedMaxBlockId innerMaxBlockId).toNat)

/-! ## Where the proxies go -/

section Placement

variable {j nFiles : Nat}

/-- One more slice goes to file `n_slices % n_files`. -/
theorem computeModCount_succ (nSlices : Nat) (file : j < nFiles) :
    computeModCount j nFiles (nSlices + 1) =
      computeModCount j nFiles nSlices + if nSlices % nFiles = j then 1 else 0 := by
  have positive : 0 < nFiles := by omega
  have split := Nat.div_add_mod nSlices nFiles
  have below := Nat.mod_lt nSlices positive
  unfold computeModCount
  by_cases wrap : nSlices % nFiles + 1 = nFiles
  · -- the new slice starts a new round over the files
    have next : 0 + nFiles * (nSlices / nFiles + 1) = nSlices + 1 ∧ 0 < nFiles := by
      rw [Nat.mul_succ]
      omega
    obtain ⟨quotient, remainder⟩ := (Nat.div_mod_unique positive).mpr next
    rw [quotient, remainder]
    split_ifs <;> omega
  · have next : nSlices % nFiles + 1 + nFiles * (nSlices / nFiles) = nSlices + 1 ∧
        nSlices % nFiles + 1 < nFiles := by
      omega
    obtain ⟨quotient, remainder⟩ := (Nat.div_mod_unique positive).mpr next
    rw [quotient, remainder]
    split_ifs <;> omega

/-- The slices on file `j`, in order, have the indices below `compute_mod_count`. -/
theorem map_div_filter_range (nSlices : Nat) (file : j < nFiles) :
    ((List.range nSlices).filter fun k => k % nFiles = j).map (· / nFiles) =
      List.range (computeModCount j nFiles nSlices) := by
  induction nSlices with
  | zero => simp [computeModCount]
  | succ nSlices ih =>
    rw [List.range_succ, List.filter_append, List.map_append, ih, computeModCount_succ nSlices file]
    by_cases here : nSlices % nFiles = j
    · -- the new slice is the next index on its file
      have index : nSlices / nFiles = computeModCount j nFiles nSlices := by
        simp only [computeModCount, here, gt_iff_lt, lt_self_iff_false, if_false, Nat.add_zero]
      rw [if_pos here, List.range_succ]
      simp [here, index]
    · rw [if_neg here]
      simp [here]

theorem createProxies_eq (nFiles nProxies j : Nat) :
    createProxies nFiles nProxies j =
      ((List.range nProxies).filter fun k => k % nFiles = j).map fun k =>
        (k, ⟨computeModCount j nFiles nProxies, k / nFiles, configBlockId⟩) := by
  rw [createProxies]
  induction List.range nProxies with
  | nil => rfl
  | cons k rest ih =>
    by_cases here : k % nFiles = j
    · simp only [List.filterMap_cons, List.filter_cons, here, ne_eq, not_true_eq_false, if_false,
        decide_true, if_true, List.map_cons, ih]
    · simp only [List.filterMap_cons, List.filter_cons, here, ne_eq, not_false_eq_true, if_true,
        decide_false, Bool.false_eq_true, if_false, ih]

/-- The proxies on a file have the slice indices `0, .., mod_count - 1`, in order. -/
theorem createProxies_modIds (nProxies : Nat) (file : j < nFiles) :
    (createProxies nFiles nProxies j).map (·.2.modId) =
      List.range (computeModCount j nFiles nProxies) := by
  rw [createProxies_eq, List.map_map, ← map_div_filter_range nProxies file]
  rfl

/-- There are `compute_mod_count` proxies on a file. -/
theorem length_createProxies (nProxies : Nat) (file : j < nFiles) :
    (createProxies nFiles nProxies j).length = computeModCount j nFiles nProxies := by
  have counted := congrArg List.length (createProxies_modIds nProxies file)
  rwa [List.length_map, List.length_range] at counted

/-- Each proxy on a file has a slice index below the file's `mod_count`. -/
theorem modId_lt_of_mem_createProxies {nProxies : Nat} (file : j < nFiles) {proxy : Nat × Translator}
    (member : proxy ∈ createProxies nFiles nProxies j) : proxy.2.modId < proxy.2.modCount := by
  rw [createProxies_eq] at member
  obtain ⟨k, chosen, rfl⟩ := List.mem_map.mp member
  have index : k / nFiles ∈ List.range (computeModCount j nFiles nProxies) := by
    rw [← map_div_filter_range nProxies file]
    exact List.mem_map_of_mem chosen
  exact List.mem_range.mp index

/-- Every proxy `create_proxies` makes passes the assertions of the constructor, `n_proxies`
being an `int32_t`. -/
theorem createProxies_valid (nProxies : Nat) (file : j < nFiles) (small : nProxies < 2 ^ 31) :
    ∀ proxy ∈ createProxies nFiles nProxies j, proxy.2.Valid := by
  intro proxy member
  have index := modId_lt_of_mem_createProxies file member
  rw [createProxies_eq] at member
  obtain ⟨k, -, rfl⟩ := List.mem_map.mp member
  have counted : computeModCount j nFiles nProxies ≤ nProxies := by
    rw [← length_createProxies nProxies file, createProxies_eq, List.length_map]
    exact (List.length_filter_le _ _).trans (by rw [List.length_range])
  exact ⟨index, by dsimp only; omega⟩

/-- The proxies of all files are all `n_proxies`. -/
theorem sum_computeModCount (nSlices : Nat) (positive : 0 < nFiles) :
    ∑ j ∈ Finset.range nFiles, computeModCount j nFiles nSlices = nSlices := by
  have below : (Finset.range nFiles).filter (fun j => nSlices % nFiles > j) =
      Finset.range (nSlices % nFiles) := by
    ext j
    have := Nat.mod_lt nSlices positive
    simp only [Finset.mem_filter, Finset.mem_range, gt_iff_lt]
    omega
  have extra :
      ∑ j ∈ Finset.range nFiles, (if nSlices % nFiles > j then 1 else 0) = nSlices % nFiles := by
    rw [Finset.sum_boole, below, Finset.card_range, Nat.cast_id]
  simp only [computeModCount, Finset.sum_add_distrib, Finset.sum_const, Finset.card_range,
    smul_eq_mul, extra]
  exact Nat.div_add_mod nSlices nFiles

end Placement

/-! ## Translating block ids

`translate_block_id` computes in `uint64_t`.  Below `2^64` it is `id * mod_count + mod_id`
past the configuration block, and everything follows from the division of that number by
`mod_count`. -/

/-- The translated block id does not wrap around `2^64`. -/
def Fits (id : UInt64) (modCount modId : Nat) (cfgid : ConfigBlockId) : Prop :=
  id.toNat * modCount + modId + cfgid.subsequentSerId.toNat < 2 ^ 64

/-- Block `id * mod_count + mod_id` is the `id`-th of slice `mod_id`. -/
theorem div_mod_slice {q a modCount : Nat} (lt : a < modCount) :
    (q * modCount + a) / modCount = q ∧ (q * modCount + a) % modCount = a := by
  apply (Nat.div_mod_unique (by omega)).mpr
  constructor
  · rw [Nat.mul_comm, Nat.add_comm]
  · exact lt

section Translate

variable {id id' : UInt64} {modCount modId modId' : Nat} {cfgid : ConfigBlockId}

theorem toNat_translateBlockId (fits : Fits id modCount modId cfgid) :
    (translateBlockId id modCount modId cfgid).toNat =
      id.toNat * modCount + modId + cfgid.subsequentSerId.toNat := by
  unfold Fits at fits
  have product : id.toNat * modCount < 2 ^ 64 := by omega
  have slice : modId < 2 ^ 64 := by omega
  have inSlice : id.toNat * modCount + modId < 2 ^ 64 := by omega
  simp only [translateBlockId, UInt64.toNat_add, UInt64.toNat_mul, UInt64.toNat_ofNat', Nat.mul_mod_mod,
    Nat.mod_eq_of_lt product, Nat.mod_eq_of_lt slice, Nat.mod_eq_of_lt inSlice, Nat.mod_eq_of_lt fits]

/-- No translated id is the configuration block or below it. -/
theorem subsequentSerId_le_translateBlockId (fits : Fits id modCount modId cfgid) :
    cfgid.subsequentSerId ≤ translateBlockId id modCount modId cfgid := by
  rw [UInt64.le_iff_toNat_le, toNat_translateBlockId fits]
  omega

/-- Different slices and ids of one file never share a block. -/
theorem translateBlockId_inj (lt : modId < modCount) (lt' : modId' < modCount)
    (fits : Fits id modCount modId cfgid) (fits' : Fits id' modCount modId' cfgid)
    (same : translateBlockId id modCount modId cfgid = translateBlockId id' modCount modId' cfgid) :
    id = id' ∧ modId = modId' := by
  have inner := congrArg UInt64.toNat same
  rw [toNat_translateBlockId fits, toNat_translateBlockId fits'] at inner
  have block : id.toNat * modCount + modId = id'.toNat * modCount + modId' := by omega
  obtain ⟨quotient, remainder⟩ := div_mod_slice (q := id.toNat) lt
  obtain ⟨quotient', remainder'⟩ := div_mod_slice (q := id'.toNat) lt'
  rw [block] at quotient remainder
  constructor
  · exact UInt64.toNat_inj.mp (quotient.symm.trans quotient')
  · exact remainder.symm.trans remainder'

/-- What the inverses subtract first: the block within the file's slices. -/
theorem toNat_sub_subsequentSerId (fits : Fits id modCount modId cfgid) :
    (translateBlockId id modCount modId cfgid - cfgid.subsequentSerId).toNat =
      id.toNat * modCount + modId := by
  rw [UInt64.toNat_sub_of_le _ _ (subsequentSerId_le_translateBlockId fits),
    toNat_translateBlockId fits]
  omega

theorem untranslateBlockIdToModId_translateBlockId (lt : modId < modCount)
    (small : modCount < 2 ^ 64) (fits : Fits id modCount modId cfgid) :
    untranslateBlockIdToModId (translateBlockId id modCount modId cfgid) modCount cfgid = modId := by
  rw [untranslateBlockIdToModId, UInt64.toNat_mod, toNat_sub_subsequentSerId fits,
    UInt64.toNat_ofNat_of_lt' small]
  exact (div_mod_slice lt).2

theorem untranslateBlockIdToId_translateBlockId (lt : modId < modCount)
    (small : modCount < 2 ^ 64) (fits : Fits id modCount modId cfgid) :
    untranslateBlockIdToId (translateBlockId id modCount modId cfgid) modCount modId cfgid = id := by
  have slice : modId < 2 ^ 64 := by omega
  have below :
      UInt64.ofNat modId ≤ translateBlockId id modCount modId cfgid - cfgid.subsequentSerId := by
    rw [UInt64.le_iff_toNat_le, toNat_sub_subsequentSerId fits, UInt64.toNat_ofNat_of_lt' slice]
    omega
  apply UInt64.toNat_inj.mp
  rw [untranslateBlockIdToId, UInt64.toNat_div, UInt64.toNat_sub_of_le _ _ below,
    toNat_sub_subsequentSerId fits, UInt64.toNat_ofNat_of_lt' slice, UInt64.toNat_ofNat_of_lt' small,
    Nat.add_sub_cancel]
  exact Nat.mul_div_cancel _ (by omega)

end Translate

/-! ## The maximum block id of a slice

The rounding loop stops at the first block of the slice at or above `x`, which is less than
`mod_count` blocks further on, and dividing by `mod_count` makes it the id in the slice. -/

section Rounding

variable {modCount modId : Nat}

/-- The slice has a block within `mod_count` blocks of `x`. -/
theorem exists_slice_within (lt : modId < modCount) (x : Nat) :
    ∃ k < modCount, (x + k) % modCount = modId := by
  have positive : 0 < modCount := by omega
  have split := Nat.div_add_mod x modCount
  have residue := Nat.mod_lt x positive
  by_cases early : x % modCount ≤ modId
  · -- the block of this round
    refine ⟨modId - x % modCount, by omega, ?_⟩
    rw [show x + (modId - x % modCount) = modCount * (x / modCount) + modId by omega,
      Nat.mul_add_mod, Nat.mod_eq_of_lt lt]
  · -- the block of the next round
    refine ⟨modCount + modId - x % modCount, by omega, ?_⟩
    rw [show x + (modCount + modId - x % modCount) = modCount * (x / modCount + 1) + modId by
      rw [Nat.mul_succ]; omega, Nat.mul_add_mod, Nat.mod_eq_of_lt lt]

/-- With fuel for `k` rounds, where block `x + k` is in the slice, the loop stops at a block of
the slice no further than that. -/
theorem roundUpToSlice_of_hit {fuel x k : Nat} (bound : k ≤ fuel) (hit : (x + k) % modCount = modId) :
    roundUpToSlice modCount modId fuel x % modCount = modId ∧
      x ≤ roundUpToSlice modCount modId fuel x ∧ roundUpToSlice modCount modId fuel x ≤ x + k := by
  induction fuel generalizing x k with
  | zero =>
    have none : k = 0 := by omega
    subst none
    exact ⟨hit, le_refl x, le_refl x⟩
  | succ fuel ih =>
    by_cases stop : x % modCount = modId
    · rw [roundUpToSlice, if_neg (not_not.mpr stop)]
      exact ⟨stop, le_refl x, by omega⟩
    · -- the loop goes on, so block `x + k` is a later one
      cases k with
      | zero => exact absurd hit stop
      | succ k =>
        rw [roundUpToSlice, if_pos stop]
        have next := @ih (x + 1) k (by omega) (by rwa [Nat.add_right_comm, Nat.add_assoc])
        exact ⟨next.1, by omega, by omega⟩

/-- The loop of `max_block_id`, run for `mod_count` rounds, ends at the first block of the
slice at or above `x`. -/
theorem roundUpToSlice_spec (lt : modId < modCount) (x : Nat) :
    roundUpToSlice modCount modId modCount x % modCount = modId ∧
      x ≤ roundUpToSlice modCount modId modCount x ∧
      roundUpToSlice modCount modId modCount x < x + modCount := by
  obtain ⟨k, within, hit⟩ := exists_slice_within lt x
  obtain ⟨residue, above, atMost⟩ := roundUpToSlice_of_hit within.le hit
  exact ⟨residue, above, by omega⟩

end Rounding

/-- An `int64_t` read of a `uint64_t`. -/
theorem toInt_toInt64 (d : UInt64) :
    d.toInt64.toInt = if d.toNat < 2 ^ 63 then (d.toNat : Int) else d.toNat - 2 ^ 64 := by
  have same : ({ toUInt64 := d } : Int64).toBitVec.toNat = d.toNat := rfl
  rw [Int64.toInt, UInt64.toInt64]
  simp only [BitVec.toInt_eq_toNat_cond, same]
  split_ifs <;> omega

/-- A difference of small block ids, wrapped in `uint64_t` and read as an `int64_t`, is the
difference of integers. -/
theorem toInt_toInt64_sub {a b : UInt64} (small : a.toNat < 2 ^ 63) (smallSub : b.toNat ≤ 2 ^ 63) :
    (a - b).toInt64.toInt = a.toNat - b.toNat := by
  rw [toInt_toInt64, UInt64.toNat_sub]
  have bounded := b.toNat_lt
  by_cases le : b.toNat ≤ a.toNat
  · rw [show 2 ^ 64 - b.toNat + a.toNat = (a.toNat - b.toNat) + 1 * 2 ^ 64 by omega,
      Nat.add_mul_mod_self_right, Nat.mod_eq_of_lt (by omega), if_pos (by omega)]
    omega
  · rw [Nat.mod_eq_of_lt (by omega), if_neg (by omega)]
    omega

/-- An id whose blocks below are all under the inner maximum is at most every id whose
translation reaches it. -/
theorem le_of_translateBlockId_below {r y innerMax : UInt64} {modCount modId : Nat}
    {cfgid : ConfigBlockId} (fits : Fits r modCount modId cfgid)
    (below : ∀ v < r.toNat, v * modCount + modId + cfgid.subsequentSerId.toNat < innerMax.toNat)
    (reach : innerMax ≤ translateBlockId y modCount modId cfgid) : r ≤ y := by
  rw [UInt64.le_iff_toNat_le]
  apply Nat.le_of_not_lt
  intro smaller
  have fitsY : Fits y modCount modId cfgid := by
    unfold Fits at fits ⊢
    have := Nat.mul_le_mul_right modCount smaller.le
    omega
  rw [UInt64.le_iff_toNat_le, toNat_translateBlockId fitsY] at reach
  have := below y.toNat smaller
  omega

/-- The trimming loop stops below the rounded id, past deleted blocks only, at a block that is
not deleted or at `0`. -/
theorem trimDeleted_spec (getDeleteBit : UInt64 → Bool) (x : Nat) :
    trimDeleted getDeleteBit x ≤ x ∧
      (∀ v, trimDeleted getDeleteBit x ≤ v → v < x → getDeleteBit (UInt64.ofNat v) = true) ∧
      (0 < trimDeleted getDeleteBit x →
        getDeleteBit (UInt64.ofNat (trimDeleted getDeleteBit x - 1)) = false) := by
  induction x with
  | zero =>
    refine ⟨le_refl 0, fun _ _ outside => absurd outside (Nat.not_lt_zero _), ?_⟩
    intro empty
    exact absurd empty (lt_irrefl 0)
  | succ x ih =>
    cases kept : getDeleteBit (UInt64.ofNat x)
    · -- block `x` is live, so the loop stops above it
      have stop : trimDeleted getDeleteBit (x + 1) = x + 1 := by simp [trimDeleted, kept]
      rw [stop]
      exact ⟨le_refl _, fun _ above below => absurd below (Nat.not_lt.mpr above), fun _ => kept⟩
    · have down : trimDeleted getDeleteBit (x + 1) = trimDeleted getDeleteBit x := by
        simp [trimDeleted, kept]
      rw [down]
      obtain ⟨atMost, deleted, live⟩ := ih
      refine ⟨Nat.le_succ_of_le atMost, ?_, live⟩
      intro v above below
      by_cases top : v = x
      · rw [top]
        exact kept
      · exact deleted v above (by omega)

namespace Translator

variable {t : Translator} {innerMax : UInt64}

/-- The id `max_block_id` rounds to, as a number. -/
theorem toNat_roundedMaxBlockId (valid : t.Valid) (small : innerMax.toNat < 2 ^ 63)
    (smallCfg : t.cfgid.subsequentSerId.toNat ≤ 2 ^ 63) :
    (t.roundedMaxBlockId innerMax).toNat =
      if innerMax.toNat ≤ t.cfgid.subsequentSerId.toNat then 0
      else roundUpToSlice t.modCount t.modId t.modCount
        (innerMax.toNat - t.cfgid.subsequentSerId.toNat) / t.modCount := by
  unfold roundedMaxBlockId
  simp only [toInt_toInt64_sub small smallCfg]
  split_ifs with empty high high
  · rfl
  · omega
  · omega
  · -- the rounded block is below `2^63 + mod_count`, so its id fits
    obtain ⟨-, -, within⟩ := roundUpToSlice_spec valid.modId_lt
      (innerMax.toNat - t.cfgid.subsequentSerId.toNat)
    have slice := valid.modCount_lt
    have difference : ((innerMax.toNat : Int) - t.cfgid.subsequentSerId.toNat).toNat =
        innerMax.toNat - t.cfgid.subsequentSerId.toNat := by
      omega
    rw [difference]
    apply UInt64.toNat_ofNat_of_lt'
    show _ < 2 ^ 64
    exact lt_of_le_of_lt (Nat.div_le_self _ _) (by omega)

/-- The rounded id is the least whose block reaches the inner maximum: the assertion after
the loop holds, and no smaller id would do. -/
theorem roundedMaxBlockId_least (valid : t.Valid) (small : innerMax.toNat + t.modCount ≤ 2 ^ 63)
    (smallCfg : t.cfgid.subsequentSerId.toNat ≤ 2 ^ 63) :
    innerMax ≤ t.translateBlockId (t.roundedMaxBlockId innerMax) ∧
      ∀ y, innerMax ≤ t.translateBlockId y → t.roundedMaxBlockId innerMax ≤ y := by
  have slice := valid.modId_lt
  have bounded := valid.modCount_lt
  have below : innerMax.toNat < 2 ^ 63 := by omega
  have rounded := toNat_roundedMaxBlockId valid below smallCfg
  by_cases empty : innerMax.toNat ≤ t.cfgid.subsequentSerId.toNat
  · -- nothing lies past the configuration block: id 0 already reaches it
    rw [if_pos empty] at rounded
    have fits : Fits (t.roundedMaxBlockId innerMax) t.modCount t.modId t.cfgid := by
      unfold Fits
      rw [rounded]
      omega
    constructor
    · rw [UInt64.le_iff_toNat_le, translateBlockId, toNat_translateBlockId fits, rounded]
      omega
    · intro y _
      rw [UInt64.le_iff_toNat_le, rounded]
      exact Nat.zero_le _
  · rw [if_neg empty] at rounded
    set z := roundUpToSlice t.modCount t.modId t.modCount
      (innerMax.toNat - t.cfgid.subsequentSerId.toNat) with roundedUp
    obtain ⟨residue, above, within⟩ := roundUpToSlice_spec valid.modId_lt
      (innerMax.toNat - t.cfgid.subsequentSerId.toNat)
    rw [← roundedUp] at residue above within
    -- the rounded block is block `z / mod_count` of the slice
    have block : z / t.modCount * t.modCount + t.modId = z := by
      have split := Nat.div_add_mod z t.modCount
      rw [residue, Nat.mul_comm] at split
      exact split
    have fits : Fits (t.roundedMaxBlockId innerMax) t.modCount t.modId t.cfgid := by
      unfold Fits
      rw [rounded]
      omega
    constructor
    · rw [UInt64.le_iff_toNat_le, translateBlockId, toNat_translateBlockId fits, rounded]
      omega
    · intro y reach
      apply le_of_translateBlockId_below fits _ reach
      intro v lower
      rw [rounded] at lower
      have earlier := Nat.mul_le_mul_right t.modCount (Nat.succ_le_of_lt lower)
      rw [Nat.succ_mul] at earlier
      omega

/-- What `max_block_id` returns: at most the rounded id, with every block of the slice from it up
to the rounded id deleted. -/
theorem maxBlockId_spec (innerMax : UInt64) (getDeleteBit : UInt64 → Bool) :
    (t.maxBlockId innerMax getDeleteBit).toNat ≤ (t.roundedMaxBlockId innerMax).toNat ∧
      ∀ v, (t.maxBlockId innerMax getDeleteBit).toNat ≤ v →
        v < (t.roundedMaxBlockId innerMax).toNat → getDeleteBit (t.translateBlockId (UInt64.ofNat v)) = true := by
  obtain ⟨atMost, deleted, -⟩ := trimDeleted_spec (fun id => getDeleteBit (t.translateBlockId id))
    (t.roundedMaxBlockId innerMax).toNat
  have fits : (t.maxBlockId innerMax getDeleteBit).toNat =
      trimDeleted (fun id => getDeleteBit (t.translateBlockId id))
        (t.roundedMaxBlockId innerMax).toNat := by
    apply UInt64.toNat_ofNat_of_lt'
    exact lt_of_le_of_lt atMost (t.roundedMaxBlockId innerMax).toNat_lt
  rw [fits]
  exact ⟨atMost, deleted⟩

end Translator

/-! ## The layout of a file

Where nothing wraps around `2^64`, the slices of one file are disjoint, each inverted by the
untranslate functions, and `max_block_id` rounds to the least id that reaches the inner maximum.
Both bounds are needed: `uint64_t` arithmetic folds ids past `2^64 / mod_count` back onto
other blocks, and an inner maximum at or above `2^63 + 1` reads as a negative `int64_t`. -/

theorem translated_slices_partition_file :
    (∀ nFiles nProxies, 0 < nFiles →
      (∀ j < nFiles, ∀ proxy ∈ createProxies nFiles nProxies j,
          proxy.2.modId < proxy.2.modCount) ∧
        ∑ j ∈ Finset.range nFiles, computeModCount j nFiles nProxies = nProxies) ∧
    (∀ (modCount modId modId' : Nat) (id id' : UInt64) (cfgid : ConfigBlockId),
      modId < modCount → modId' < modCount → modCount < 2 ^ 31 →
      Fits id modCount modId cfgid → Fits id' modCount modId' cfgid →
      (translateBlockId id modCount modId cfgid = translateBlockId id' modCount modId' cfgid →
          id = id' ∧ modId = modId') ∧
        cfgid.subsequentSerId ≤ translateBlockId id modCount modId cfgid ∧
        untranslateBlockIdToModId (translateBlockId id modCount modId cfgid) modCount cfgid = modId ∧
        untranslateBlockIdToId (translateBlockId id modCount modId cfgid) modCount modId cfgid = id) ∧
    (∀ (t : Translator) (innerMax : UInt64), t.Valid →
      innerMax.toNat + t.modCount ≤ 2 ^ 63 → t.cfgid.subsequentSerId.toNat ≤ 2 ^ 63 →
      innerMax ≤ t.translateBlockId (t.roundedMaxBlockId innerMax) ∧
        ∀ y, innerMax ≤ t.translateBlockId y → t.roundedMaxBlockId innerMax ≤ y) := by
  refine ⟨?_, ?_, ?_⟩
  · intro nFiles nProxies positive
    constructor
    · intro j file proxy member
      exact modId_lt_of_mem_createProxies file member
    · exact sum_computeModCount nProxies positive
  · intro modCount modId modId' id id' cfgid lt lt' int fits fits'
    have small : modCount < 2 ^ 64 := by omega
    refine ⟨translateBlockId_inj lt lt' fits fits', subsequentSerId_le_translateBlockId fits,
      ?_, ?_⟩
    · exact untranslateBlockIdToModId_translateBlockId lt small fits
    · exact untranslateBlockIdToId_translateBlockId lt small fits
  · intro t innerMax valid small smallCfg
    exact Translator.roundedMaxBlockId_least valid small smallCfg

/-- Two proxies on one file, with `mod_count` 2: id `2^63` of the first wraps onto its id `0`,
and the untranslation of that block gives `0` back; with `mod_count` 1, the last id wraps onto
the configuration block; and an inner maximum of `2^63 + 1` leaves `max_block_id` at `0`. -/
theorem translated_slices_wrap :
    createProxies 1 2 0 = [(0, ⟨2, 0, configBlockId⟩), (1, ⟨2, 1, configBlockId⟩)] ∧
    translateBlockId 9223372036854775808 2 0 configBlockId = translateBlockId 0 2 0 configBlockId ∧
    untranslateBlockIdToId (translateBlockId 9223372036854775808 2 0 configBlockId) 2 0
      configBlockId = 0 ∧
    translateBlockId 18446744073709551615 1 0 configBlockId < configBlockId.subsequentSerId ∧
    (⟨1, 0, configBlockId⟩ : Translator).translateBlockId
      ((⟨1, 0, configBlockId⟩ : Translator).roundedMaxBlockId 9223372036854775809) <
      9223372036854775809 := by
  decide

end Serializer
end RethinkDB
