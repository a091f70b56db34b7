import Mathlib
import RethinkDB.Foundations.QuotaFill

/-!
# Choosing replicas: `pick_best_pairings`

The greedy loop of `clustering/administration/tables/generate_config.cc`.  A `pairing_t`
offers one server as a replica of one shard; the pairings of one server form a
`server_pairings_t`, and these groups sit in a `std::multiset` ordered by the server's usage
and its cheapest pairing.  Each turn takes the first group, uses up its cheapest pairing (a
replica, when that shard still lacks one), raises the server's usage if it was used and puts
the group back while it has pairings left.

Multisets are lists in iteration order; `std::multiset::insert` puts an element at the upper
bound of its equal range, which is `List.orderedInsert` with the strict order.  The backfill
costs, `double`s in the code, are rationals: only their order is ever used.  The callback of
`pick_best_pairings` is recorded as the list of its calls (`picked`); it never touches the
multiset of the loop, so its effects are replayed by the caller afterwards.

Whatever the order of the multiset, a turn uses up one (server, shard) pair of the pool of
pairs the groups still offer (`PickState.step_spec`), so the loop is an instance of
`QuotaFill`: with enough servers for every shard it never takes `begin()` of an empty multiset
and ends with `numReplicas` distinct servers per shard (`pickBestPairings_spec`).
-/

namespace RethinkDB.Clustering

open QuotaFill

/-- `pairing_t`: the server of its group as a replica of `shard`, at cost `backfillCost`. -/
structure Pairing where
  backfillCost : ℚ
  shard : Nat
  deriving DecidableEq, Repr

/-- `operator<` on `pairing_t`. -/
def Pairing.lt (x y : Pairing) : Prop := x.backfillCost < y.backfillCost

instance : DecidableRel Pairing.lt :=
  fun x y => inferInstanceAs (Decidable (x.backfillCost < y.backfillCost))

variable {σ : Type}

/-- `server_pairings_t`; `pairings` is its `std::multiset<pairing_t>` in iteration order. -/
structure ServerPairings (σ : Type) where
  selfUsageCost : Int
  pairings : List Pairing
  otherUsageCost : Int
  server : σ

/-- A `server_pairings_t` in the multiset of `pick_best_pairings`.  Only groups with pairings
left are ever put there, which is what the `guarantee`s of its `operator<` ask. -/
structure Group (σ : Type) extends ServerPairings σ where
  nonempty : pairings ≠ []

/-- `*sp->pairings.begin()`: the cheapest pairing of a group. -/
def Group.first (g : Group σ) : Pairing := g.pairings.head g.nonempty

/-- `operator<` on the groups: the usage by this table first, then the cheapest pairing, then
the usage by the other tables. -/
def Group.lt (x y : Group σ) : Bool :=
  if x.selfUsageCost < y.selfUsageCost then true
  else if x.selfUsageCost > y.selfUsageCost then false
  else if x.first.lt y.first then true
  else if y.first.lt x.first then false
  else x.otherUsageCost < y.otherUsageCost

/-- `std::multiset::insert` of a group, at the upper bound of its equal range. -/
def insertGroup (g : Group σ) (s : List (Group σ)) : List (Group σ) :=
  s.orderedInsert (fun x y => x.lt y = true) g

/-- `if (!sp->pairings.empty()) pairings.insert(sp)`. -/
def insertIfNonempty (sp : ServerPairings σ) (s : List (Group σ)) : List (Group σ) :=
  if h : sp.pairings = [] then s else insertGroup ⟨sp, h⟩ s

/-- The locals of `pick_best_pairings`: the multiset, `shard_replicas`, `total_replicas`, and
the calls of the callback so far, oldest first. -/
structure PickState (σ : Type) where
  pairings : List (Group σ)
  shardReplicas : Nat → Nat
  totalReplicas : Nat
  picked : List (Nat × σ)

/-- One turn of the `while` loop; `none` is `*pairings.begin()` of an empty multiset. -/
def PickState.step (numReplicas : Nat) (usageCost : Int) (st : PickState σ) :
    Option (PickState σ) :=
  match st.pairings with
  | [] => none
  | sp :: rest =>
    let it := sp.first
    if st.shardReplicas it.shard < numReplicas then
      some { pairings := insertIfNonempty { sp.toServerPairings with
                selfUsageCost := sp.selfUsageCost + usageCost, pairings := sp.pairings.tail } rest
             shardReplicas := Function.update st.shardReplicas it.shard
                (st.shardReplicas it.shard + 1)
             totalReplicas := st.totalReplicas + 1
             picked := st.picked ++ [(it.shard, sp.server)] }
    else
      some { st with
        pairings := insertIfNonempty { sp.toServerPairings with pairings := sp.pairings.tail } rest }

/-- The `while (total_replicas < num_shards * num_replicas)` loop, for at most `fuel` turns.
Each turn erases one pairing, so once the pairings are used up the multiset is empty and a
further turn would take its `begin()`: that is the `none` at the end of the fuel. -/
def pickLoop (numShards numReplicas : Nat) (usageCost : Int) :
    Nat → PickState σ → Option (PickState σ)
  | 0, st => if st.totalReplicas < numShards * numReplicas then none else some st
  | fuel + 1, st =>
    if st.totalReplicas < numShards * numReplicas then
      (st.step numReplicas usageCost).bind (pickLoop numShards numReplicas usageCost fuel)
    else some st

/-- How many pairings the groups hold. -/
def pairingCount (pairings : List (Group σ)) : Nat :=
  (pairings.map fun g => g.pairings.length).sum

/-- `pick_best_pairings`: the (shard, server) calls of its callback, in order. -/
def pickBestPairings (numShards numReplicas : Nat) (pairings : List (Group σ))
    (usageCost : Int) : Option (List (Nat × σ)) :=
  (pickLoop numShards numReplicas usageCost (pairingCount pairings)
    ⟨pairings, fun _ => 0, 0, []⟩).map PickState.picked

/-! ### The pool of (server, shard) pairs -/

/-- The (server, shard) pairs a group still offers. -/
def ServerPairings.cells (sp : ServerPairings σ) : List (σ × Nat) :=
  sp.pairings.map fun p => (sp.server, p.shard)

/-- The (server, shard) pairs offered by groups, in order. -/
def cellsOf (sps : List (ServerPairings σ)) : List (σ × Nat) := sps.flatMap ServerPairings.cells

/-- The (server, shard) pairs the multiset of a state still offers. -/
def PickState.pool (st : PickState σ) : List (σ × Nat) :=
  cellsOf (st.pairings.map Group.toServerPairings)

@[simp] theorem cellsOf_nil : cellsOf ([] : List (ServerPairings σ)) = [] := rfl

@[simp] theorem cellsOf_cons (sp : ServerPairings σ) (sps : List (ServerPairings σ)) :
    cellsOf (sp :: sps) = sp.cells ++ cellsOf sps := rfl

@[simp] theorem cellsOf_append (sps sps' : List (ServerPairings σ)) :
    cellsOf (sps ++ sps') = cellsOf sps ++ cellsOf sps' := List.flatMap_append

theorem length_cellsOf (sps : List (ServerPairings σ)) :
    (cellsOf sps).length = (sps.map fun sp => sp.pairings.length).sum := by
  simp [cellsOf, List.length_flatMap, ServerPairings.cells]

theorem length_pool (st : PickState σ) : st.pool.length = pairingCount st.pairings := by
  simp [PickState.pool, length_cellsOf, pairingCount, Function.comp_def]

/-- A group's pairs: its cheapest pairing's first, then those of the rest. -/
theorem Group.cells_eq (g : Group σ) :
    g.cells = (g.server, g.first.shard) :: g.pairings.tail.map fun p => (g.server, p.shard) := by
  obtain ⟨⟨self, pairings, other, server⟩, nonempty⟩ := g
  cases pairings with
  | nil => exact absurd rfl nonempty
  | cons p ps => rfl

/-- Putting a group back adds its pairs to the pool, wherever it lands. -/
theorem cells_insertIfNonempty (sp : ServerPairings σ) (s : List (Group σ)) :
    (cellsOf ((insertIfNonempty sp s).map Group.toServerPairings)).Perm
      (sp.cells ++ cellsOf (s.map Group.toServerPairings)) := by
  unfold insertIfNonempty
  split_ifs with empty
  · simp [ServerPairings.cells, empty]
  · have inserted := (List.perm_orderedInsert (fun x y : Group σ => x.lt y = true) ⟨sp, empty⟩ s)
    exact (inserted.map Group.toServerPairings).flatMap_right ServerPairings.cells

/-! ### One turn -/

/-- `shard_replicas` and `total_replicas` count the calls of the callback. -/
structure PickState.Tracks (st : PickState σ) : Prop where
  shardReplicas_eq : ∀ k, st.shardReplicas k = filled st.picked k
  totalReplicas_eq : st.totalReplicas = st.picked.length

variable {numShards numReplicas : Nat} {usageCost : Int}

theorem PickState.tracks_init (pairings : List (Group σ)) :
    (⟨pairings, fun _ => 0, 0, []⟩ : PickState σ).Tracks where
  shardReplicas_eq _ := rfl
  totalReplicas_eq := rfl

theorem PickState.step_isSome {st : PickState σ} (nonempty : st.pool ≠ []) :
    ∃ st', st.step numReplicas usageCost = some st' := by
  obtain ⟨pairings, shardReplicas, totalReplicas, picked⟩ := st
  cases pairings with
  | nil => exact absurd rfl nonempty
  | cons sp rest =>
    simp only [PickState.step]
    split_ifs <;> exact ⟨_, rfl⟩

/-- A turn uses up one pair of the pool, picked exactly as `QuotaFill.consume` says. -/
theorem PickState.step_spec {st st' : PickState σ} (tracks : st.Tracks)
    (stepped : st.step numReplicas usageCost = some st') :
    ∃ cell, st.pool.Perm (cell :: st'.pool) ∧ st'.picked = consume numReplicas st.picked cell ∧
      st'.Tracks := by
  obtain ⟨pairings, shardReplicas, totalReplicas, picked⟩ := st
  cases pairings with
  | nil => simp [PickState.step] at stepped
  | cons sp rest =>
    -- the pool before the turn: the first group's cheapest pair, then everything else
    have before : PickState.pool ⟨sp :: rest, shardReplicas, totalReplicas, picked⟩ =
        (sp.server, sp.first.shard) ::
          (sp.pairings.tail.map (fun p => (sp.server, p.shard)) ++
            cellsOf (rest.map Group.toServerPairings)) := by
      simp only [PickState.pool, List.map_cons, cellsOf_cons]
      rw [sp.cells_eq, List.cons_append]
    have room : shardReplicas sp.first.shard = filled picked sp.first.shard :=
      tracks.shardReplicas_eq _
    have total : totalReplicas = picked.length := tracks.totalReplicas_eq
    simp only [PickState.step] at stepped
    split_ifs at stepped with short
    · -- the shard is short of replicas: the pair is picked
      cases stepped
      refine ⟨(sp.server, sp.first.shard), ?_, by simp [consume, ← room, short], ?_⟩
      · rw [before]
        exact (cells_insertIfNonempty { sp.toServerPairings with
          selfUsageCost := sp.selfUsageCost + usageCost, pairings := sp.pairings.tail }
            rest).symm.cons _
      · constructor
        · intro k
          dsimp only
          rw [Function.update_apply, filled_append_singleton]
          by_cases same : k = sp.first.shard
          · subst same
            simp [room]
          · rw [if_neg same, if_neg (Ne.symm same), Nat.add_zero]
            exact tracks.shardReplicas_eq k
        · simp [total]
    · -- the shard is full: the pair is dropped
      cases stepped
      refine ⟨(sp.server, sp.first.shard), ?_, by simp [consume, ← room, short],
        ⟨tracks.shardReplicas_eq, total⟩⟩
      rw [before]
      exact (cells_insertIfNonempty { sp.toServerPairings with pairings := sp.pairings.tail }
        rest).symm.cons _

/-! ### The whole loop -/

/-- Started on a pool whose pairs have shards below `numShards`, the loop returns, and ends
with a full quota of picks, as long as the invariant of `QuotaFill` holds at the start and the
fuel covers the pairings left. -/
theorem pickLoop_spec {initial : List (σ × Nat)} (inRange : ∀ c ∈ initial, c.2 < numShards) :
    ∀ (fuel : Nat) (st : PickState σ),
      Inv (Finset.range numShards) numReplicas initial st.pool st.picked → st.Tracks →
      st.pool.length ≤ fuel →
      ∃ st', pickLoop numShards numReplicas usageCost fuel st = some st' ∧
        Inv (Finset.range numShards) numReplicas initial st'.pool st'.picked ∧
        numShards * numReplicas ≤ st'.picked.length := by
  have inKeys : ∀ c ∈ initial, c.2 ∈ Finset.range numShards :=
    fun c mem => Finset.mem_range.mpr (inRange c mem)
  intro fuel
  induction fuel with
  | zero =>
    intro st inv tracks exhausted
    have empty : st.pool = [] := List.eq_nil_of_length_eq_zero (Nat.le_zero.mp exhausted)
    have full : numShards * numReplicas ≤ st.picked.length := by
      by_contra short
      have short' : st.picked.length < (Finset.range numShards).card * numReplicas := by
        rw [Finset.card_range]
        omega
      exact inv.pool_ne_nil inKeys short' empty
    refine ⟨st, ?_, inv, full⟩
    rw [pickLoop, tracks.totalReplicas_eq, if_neg (by omega)]
  | succ fuel ih =>
    intro st inv tracks fueled
    by_cases short : st.totalReplicas < numShards * numReplicas
    · -- the pool cannot be empty while the picks are short, so the turn happens
      have short' : st.picked.length < (Finset.range numShards).card * numReplicas := by
        rw [Finset.card_range, ← tracks.totalReplicas_eq]
        exact short
      obtain ⟨st', stepped⟩ : ∃ st', st.step numReplicas usageCost = some st' :=
        PickState.step_isSome (inv.pool_ne_nil inKeys short')
      obtain ⟨cell, perm, picked, tracks'⟩ := PickState.step_spec tracks stepped
      have inv' := inv.consume perm
      rw [← picked] at inv'
      have shorter : st'.pool.length ≤ fuel := by
        have := perm.length_eq
        simp only [List.length_cons] at this
        omega
      obtain ⟨st'', loop, inv'', full⟩ := ih st' inv' tracks' shorter
      refine ⟨st'', ?_, inv'', full⟩
      rw [pickLoop, if_pos short, stepped, Option.bind_some, loop]
    · exact ⟨st, by rw [pickLoop, if_neg short], inv, by
        rw [← tracks.totalReplicas_eq]
        omega⟩

/-- `pick_best_pairings` on groups whose pairs are distinct and have shards below
`numShards`, with at least `numReplicas` servers offered for each shard: it returns (it never
takes `begin()` of an empty multiset), every shard gets exactly `numReplicas` calls of the
callback (and no shard more), and the calls are distinct pairs the groups offered. -/
theorem pickBestPairings_spec {pairings : List (Group σ)}
    (nodup : (cellsOf (pairings.map Group.toServerPairings)).Nodup)
    (inRange : ∀ c ∈ cellsOf (pairings.map Group.toServerPairings), c.2 < numShards)
    (enough : ∀ k < numShards,
      numReplicas ≤ supply (cellsOf (pairings.map Group.toServerPairings)) k) :
    ∃ picks, pickBestPairings numShards numReplicas pairings usageCost = some picks ∧
      (∀ p ∈ picks, (p.2, p.1) ∈ cellsOf (pairings.map Group.toServerPairings)) ∧
      picks.Nodup ∧ (∀ k, filled picks k ≤ numReplicas) ∧
      ∀ k < numShards, filled picks k = numReplicas := by
  have start : Inv (Finset.range numShards) numReplicas
      (cellsOf (pairings.map Group.toServerPairings))
      (PickState.pool ⟨pairings, fun _ => 0, 0, []⟩) [] :=
    inv_init nodup (fun k key => enough k (Finset.mem_range.mp key))
  obtain ⟨st, loop, inv, full⟩ : ∃ st', pickLoop numShards numReplicas usageCost
      (pairingCount pairings) ⟨pairings, fun _ => 0, 0, []⟩ = some st' ∧
      Inv (Finset.range numShards) numReplicas (cellsOf (pairings.map Group.toServerPairings))
        st'.pool st'.picked ∧ numShards * numReplicas ≤ st'.picked.length :=
    pickLoop_spec inRange (pairingCount pairings) _ start (PickState.tracks_init pairings)
      (le_of_eq (length_pool _))
  have inKeys : ∀ c ∈ cellsOf (pairings.map Group.toServerPairings),
      c.2 ∈ Finset.range numShards :=
    fun c mem => Finset.mem_range.mpr (inRange c mem)
  refine ⟨st.picked, by rw [pickBestPairings, loop]; rfl, inv.picked_initial, inv.picks_nodup,
    inv.filled_le, ?_⟩
  intro k short
  rw [← Finset.card_range numShards] at full
  exact inv.filled_eq inKeys full k (Finset.mem_range.mpr short)

/-- Two equal servers and two shards, one replica each: the first server takes shard 0, its
usage then puts the second server first, which skips the full shard 0 and takes shard 1. -/
example :
    pickBestPairings 2 1
      [⟨⟨0, [⟨0, 0⟩, ⟨0, 1⟩], 0, 1⟩, List.cons_ne_nil _ _⟩,
       ⟨⟨0, [⟨0, 0⟩, ⟨0, 1⟩], 0, 2⟩, List.cons_ne_nil _ _⟩] 10 =
      some [(0, 1), (1, 2)] := by
  decide

end RethinkDB.Clustering
