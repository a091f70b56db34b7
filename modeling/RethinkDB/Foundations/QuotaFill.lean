import Mathlib

/-!
# Filling quotas from a pool of candidates

A pool of candidate pairs `(candidate, key)` is used up one pair at a time, in any order; a
pair is picked when its key has fewer than `quota` picks so far (`consume`).  This is the
counting argument behind greedy placement: if every key starts with at least `quota` distinct
candidates, the pool cannot run dry while some key is below its quota (`Inv.pool_ne_nil`),
and once the picks number `quota` per key every key has exactly `quota` of them
(`Inv.filled_eq`), each from a different candidate (`nodup_pickedFor`).  Nothing here depends on
the order in which the pool is used up, which is why a greedy loop with any priority order
instantiates it.
-/

namespace QuotaFill

variable {ι κ : Type} [DecidableEq κ]

/-- How many of `picks` went to key `k`. -/
def filled (picks : List (κ × ι)) (k : κ) : Nat := (picks.map Prod.fst).count k

/-- How many candidates the pool still holds for key `k`. -/
def supply (pool : List (ι × κ)) (k : κ) : Nat := (pool.map Prod.snd).count k

/-- The candidates picked for key `k`, oldest first. -/
def pickedFor (picks : List (κ × ι)) (k : κ) : List ι :=
  (picks.filter (fun p => p.1 == k)).map Prod.snd

/-- Using up the pair `c` of the pool: it is picked when its key is still below the quota. -/
def consume (quota : Nat) (picks : List (κ × ι)) (c : ι × κ) : List (κ × ι) :=
  if filled picks c.2 < quota then picks ++ [(c.2, c.1)] else picks

@[simp] theorem filled_nil (k : κ) : filled ([] : List (κ × ι)) k = 0 := rfl

@[simp] theorem filled_append_singleton (picks : List (κ × ι)) (k' : κ) (v : ι) (k : κ) :
    filled (picks ++ [(k', v)]) k = filled picks k + if k' = k then 1 else 0 := by
  simp [filled, List.count_append, List.count_singleton]

@[simp] theorem supply_nil (k : κ) : supply ([] : List (ι × κ)) k = 0 := rfl

@[simp] theorem supply_cons (c : ι × κ) (pool : List (ι × κ)) (k : κ) :
    supply (c :: pool) k = supply pool k + if c.2 = k then 1 else 0 := by
  simp [supply, List.count_cons]

@[simp] theorem supply_append (pool pool' : List (ι × κ)) (k : κ) :
    supply (pool ++ pool') k = supply pool k + supply pool' k := by
  simp [supply, List.count_append]

theorem supply_perm {pool pool' : List (ι × κ)} (perm : pool.Perm pool') (k : κ) :
    supply pool k = supply pool' k :=
  (perm.map Prod.snd).count_eq k

/-- A pool read back as picks has as many picks per key as it had candidates. -/
theorem supply_map_swap (picks : List (κ × ι)) (k : κ) :
    supply (picks.map Prod.swap) k = filled picks k := by
  simp [supply, filled, Function.comp_def]

@[simp] theorem pickedFor_nil (k : κ) : pickedFor ([] : List (κ × ι)) k = [] := rfl

theorem pickedFor_cons (p : κ × ι) (picks : List (κ × ι)) (k : κ) :
    pickedFor (p :: picks) k = if p.1 = k then p.2 :: pickedFor picks k else pickedFor picks k := by
  by_cases same : p.1 = k <;> simp [pickedFor, same]

theorem mem_pickedFor {picks : List (κ × ι)} {k : κ} {v : ι} :
    v ∈ pickedFor picks k ↔ (k, v) ∈ picks := by
  simp [pickedFor]

theorem length_pickedFor (picks : List (κ × ι)) (k : κ) :
    (pickedFor picks k).length = filled picks k := by
  simp [pickedFor, filled, List.count_eq_length_filter, List.filter_map, Function.comp_def]

/-- Distinct picks give distinct candidates for each key, since they share the key. -/
theorem nodup_pickedFor {picks : List (κ × ι)} (nodup : picks.Nodup) (k : κ) :
    (pickedFor picks k).Nodup := by
  apply (nodup.filter _).map_on
  intro x xMem y yMem same
  have xKey : x.1 = k := by simpa using (List.mem_filter.mp xMem).2
  have yKey : y.1 = k := by simpa using (List.mem_filter.mp yMem).2
  exact Prod.ext (xKey.trans yKey.symm) same

/-- Over keys that hold every pick, the fills add up to the number of picks. -/
theorem sum_filled {keys : Finset κ} {picks : List (κ × ι)} (inKeys : ∀ p ∈ picks, p.1 ∈ keys) :
    ∑ k ∈ keys, filled picks k = picks.length := by
  have onKeys : ∀ k ∈ ((picks.map Prod.fst : List κ) : Multiset κ), k ∈ keys := by
    intro k mem
    obtain ⟨p, pMem, rfl⟩ := List.mem_map.mp (Multiset.mem_coe.mp mem)
    exact inKeys p pMem
  have total := Multiset.sum_count_eq_card onKeys
  simpa only [filled, Multiset.coe_count, Multiset.coe_card, List.length_map] using total

/-- What holds of the pool and the picks along a run, started from `initial`: the pool holds
distinct candidates of `initial`, every pick came from `initial` and has left the pool, no key
is over its quota, and every key can still reach it from what is left. -/
structure Inv (keys : Finset κ) (quota : Nat) (initial pool : List (ι × κ))
    (picks : List (κ × ι)) : Prop where
  pool_nodup : pool.Nodup
  pool_initial : ∀ c ∈ pool, c ∈ initial
  picked_initial : ∀ p ∈ picks, (p.2, p.1) ∈ initial
  picked_used : ∀ p ∈ picks, (p.2, p.1) ∉ pool
  picks_nodup : picks.Nodup
  filled_le : ∀ k, filled picks k ≤ quota
  enough : ∀ k ∈ keys, quota ≤ filled picks k + supply pool k

variable {keys : Finset κ} {quota : Nat} {initial pool pool' : List (ι × κ)}
  {picks : List (κ × ι)}

theorem inv_init (nodup : initial.Nodup) (enough : ∀ k ∈ keys, quota ≤ supply initial k) :
    Inv keys quota initial initial [] where
  pool_nodup := nodup
  pool_initial _ mem := mem
  picked_initial _ mem := by cases mem
  picked_used _ mem := by cases mem
  picks_nodup := List.nodup_nil
  filled_le _ := Nat.zero_le _
  enough k key := by simpa using enough k key

section Step

variable {c : ι × κ}

theorem Inv.rest_nodup (inv : Inv keys quota initial pool picks) (perm : pool.Perm (c :: pool')) :
    (c :: pool').Nodup := perm.nodup_iff.mp inv.pool_nodup

/-- A pair whose key is full is dropped from the pool and picks nothing. -/
theorem Inv.skip (inv : Inv keys quota initial pool picks) (perm : pool.Perm (c :: pool'))
    (full : ¬ filled picks c.2 < quota) : Inv keys quota initial pool' picks where
  pool_nodup := (List.nodup_cons.mp (inv.rest_nodup perm)).2
  pool_initial x mem := inv.pool_initial x (perm.mem_iff.mpr (List.mem_cons_of_mem _ mem))
  picked_initial := inv.picked_initial
  picked_used p mem inRest := inv.picked_used p mem (perm.mem_iff.mpr (List.mem_cons_of_mem _ inRest))
  picks_nodup := inv.picks_nodup
  filled_le := inv.filled_le
  enough k key := by
    have before := inv.enough k key
    rw [supply_perm perm, supply_cons] at before
    split_ifs at before with same
    · -- the key lost a candidate but is already full
      subst same
      have := inv.filled_le c.2
      omega
    · omega

/-- A pair whose key has room is picked, and its key keeps what it can still reach. -/
theorem Inv.pick (inv : Inv keys quota initial pool picks) (perm : pool.Perm (c :: pool'))
    (room : filled picks c.2 < quota) :
    Inv keys quota initial pool' (picks ++ [(c.2, c.1)]) where
  pool_nodup := (List.nodup_cons.mp (inv.rest_nodup perm)).2
  pool_initial x mem := inv.pool_initial x (perm.mem_iff.mpr (List.mem_cons_of_mem _ mem))
  picked_initial p mem := by
    rcases List.mem_append.mp mem with old | new
    · exact inv.picked_initial p old
    · rw [List.mem_singleton.mp new]
      exact inv.pool_initial c (perm.mem_iff.mpr List.mem_cons_self)
  picked_used p mem := by
    rcases List.mem_append.mp mem with old | new
    · exact fun inRest => inv.picked_used p old (perm.mem_iff.mpr (List.mem_cons_of_mem _ inRest))
    · rw [List.mem_singleton.mp new]
      exact (List.nodup_cons.mp (inv.rest_nodup perm)).1
  picks_nodup := by
    refine List.nodup_append.mpr ⟨inv.picks_nodup, List.nodup_singleton _, ?_⟩
    intro p old q new same
    rw [List.mem_singleton.mp new] at same
    subst same
    exact inv.picked_used _ old (perm.mem_iff.mpr List.mem_cons_self)
  filled_le k := by
    rw [filled_append_singleton]
    split_ifs with same
    · subst same
      omega
    · simpa using inv.filled_le k
  enough k key := by
    have before := inv.enough k key
    rw [supply_perm perm, supply_cons] at before
    rw [filled_append_singleton]
    split_ifs at before ⊢ <;> omega

/-- One step of any run: the pair used up leaves the pool, picked or not. -/
theorem Inv.consume (inv : Inv keys quota initial pool picks) (perm : pool.Perm (c :: pool')) :
    Inv keys quota initial pool' (consume quota picks c) := by
  unfold QuotaFill.consume
  split_ifs with room
  · exact inv.pick perm room
  · exact inv.skip perm room

end Step

/-- Every key of a pick is one of the keys, when every candidate's key is. -/
theorem Inv.keys_mem (inv : Inv keys quota initial pool picks)
    (inKeys : ∀ c ∈ initial, c.2 ∈ keys) : ∀ p ∈ picks, p.1 ∈ keys :=
  fun p mem => inKeys _ (inv.picked_initial p mem)

theorem Inv.exists_room (inv : Inv keys quota initial pool picks)
    (inKeys : ∀ c ∈ initial, c.2 ∈ keys) (short : picks.length < keys.card * quota) :
    ∃ k ∈ keys, filled picks k < quota := by
  by_contra noRoom
  simp only [not_exists, not_and, not_lt] at noRoom
  have atLeast : keys.card * quota ≤ ∑ k ∈ keys, filled picks k :=
    calc keys.card * quota = ∑ _k ∈ keys, quota := (Finset.sum_const_nat (fun _ _ => rfl)).symm
      _ ≤ ∑ k ∈ keys, filled picks k := Finset.sum_le_sum noRoom
  rw [sum_filled (inv.keys_mem inKeys)] at atLeast
  omega

/-- While the picks fall short of a full quota for every key, the pool is not empty. -/
theorem Inv.pool_ne_nil (inv : Inv keys quota initial pool picks)
    (inKeys : ∀ c ∈ initial, c.2 ∈ keys) (short : picks.length < keys.card * quota) :
    pool ≠ [] := by
  obtain ⟨k, key, room⟩ := inv.exists_room inKeys short
  intro empty
  have reach := inv.enough k key
  rw [empty, supply_nil] at reach
  omega

/-- Once there are a full quota's worth of picks, every key has exactly its quota. -/
theorem Inv.filled_eq (inv : Inv keys quota initial pool picks)
    (inKeys : ∀ c ∈ initial, c.2 ∈ keys) (full : keys.card * quota ≤ picks.length) :
    ∀ k ∈ keys, filled picks k = quota := by
  intro k key
  by_contra short
  have lt : filled picks k < quota := lt_of_le_of_ne (inv.filled_le k) short
  have sumLt : ∑ k ∈ keys, filled picks k < ∑ _k ∈ keys, quota :=
    Finset.sum_lt_sum (fun k _ => inv.filled_le k) ⟨k, key, lt⟩
  rw [sum_filled (inv.keys_mem inKeys), Finset.sum_const_nat (fun _ _ => rfl)] at sumLt
  omega

end QuotaFill
