import Mathlib
import RethinkDB.Clustering.PickBestPairings

/-!
# Generating a table configuration: `table_generate_config`

`clustering/administration/tables/generate_config.cc`, the brains behind `reconfigure`.  It
checks the parameters (`validate_params`), refuses to reconfigure an existing table while one
of the servers with the requested tags is disconnected, and then, tag by tag in the order of
the `num_replicas` map, builds each server's pairings with every shard and runs
`pick_best_pairings`: once with one replica per shard for the primary replicas, when the tag is
the primary tag, and once for the remaining (secondary) replicas of the tag.  The primary
round's callback raises the usage of the server it chose and erases that shard's pairing, so
the secondary round never puts a second replica of a shard on its primary.

The server config client is a snapshot of what the code reads from it; sets and maps of the
code are lists in their iteration order.  `estimate_cost_to_get_up_to_date` and the shard
scheme are a parameter (`estimateCostToGetUpToDate`), since only the order of the costs is
ever used.  The result is `none` where a `guarantee` fails, `some (.error msg)` where the code
returns `false` with `msg` in `error_out`, and `some (.ok shards)` where it returns `true`.
-/

namespace RethinkDB.Clustering

open QuotaFill

/-- `PRIMARY_USAGE_COST`. -/
def primaryUsageCost : Int := 10

/-- `SECONDARY_USAGE_COST`. -/
def secondaryUsageCost : Int := 8

/-- `table_generate_config_params_t`; `numReplicas` is its `std::map`, in key order. -/
structure GenerateConfigParams where
  numShards : Nat
  numReplicas : List (String × Nat)
  primaryReplicaTag : String
  ascending : (numReplicas.map Prod.fst).Pairwise (· < ·)

variable {σ π ι β : Type}

/-- What `table_generate_config` reads of its `server_config_client_t`: the server names, the
servers with each tag (a `std::set`, so in ascending order), and the peer of each connected
server. -/
structure ServerConfigClient (σ π : Type) [LinearOrder σ] where
  serverIdToName : σ → Option String
  serversWithTag : String → List σ
  ascending : ∀ tag, (serversWithTag tag).Pairwise (· < ·)
  peerIdForServerId : σ → Option π

/-- `table_config_t::shard_t`; an unset `primary_replica` (`nil_uuid()`) is `none`. -/
structure ConfigShard (σ : Type) where
  replicas : Finset σ
  primaryReplica : Option σ

-- Two shards are compared field by field; a derived instance would transport along the
-- equality of the replica sets, which does not compute when they were built in another order.
instance [DecidableEq σ] : DecidableEq (ConfigShard σ) := fun a b =>
  decidable_of_iff (a.replicas = b.replicas ∧ a.primaryReplica = b.primaryReplica) (by
    cases a
    cases b
    simp)

/-! ### `validate_params` -/

def zeroReplicasMessage : String :=
  "You must set `replicas` to at least one. `replicas` includes the primary replica; " ++
    "if there are zero replicas, there is nowhere to put the data."

def primaryTagMessage (tag : String) : String :=
  "Can't use server tag `" ++ tag ++ "` for primary replicas because you specified no " ++
    "replicas in server tag `" ++ tag ++ "`."

def overlapMessage (tag claimedBy name : String) : String :=
  "Server tags `" ++ tag ++ "` and `" ++ claimedBy ++ "` overlap; the server `" ++ name ++
    "` has both tags. The server tags used for replication settings for a given table must " ++
    "be non-overlapping."

section Validate

variable [DecidableEq σ]

/-- The inner loop of the overlap check: each server of `tag` is claimed for it, unless an
earlier tag claimed it already.  `server_names.at` always finds the name, since
`servers_with_tags` only holds named servers. -/
def claimServers (serverNames : σ → Option String) (tag : String) :
    List σ → List (σ × String) → Except String (List (σ × String))
  | [], claimed => .ok claimed
  | server :: rest, claimed =>
    match claimed.lookup server with
    | none => claimServers serverNames tag rest ((server, tag) :: claimed)
    | some claimedBy => .error (overlapMessage tag claimedBy ((serverNames server).getD ""))

/-- The overlap check over the tags with replicas, in the order of the map. -/
def claimTags (serversWithTags : String → List σ) (serverNames : σ → Option String) :
    List (String × Nat) → List (σ × String) → Except String Unit
  | [], _ => .ok ()
  | entry :: rest, claimed =>
    if entry.2 = 0 then claimTags serversWithTags serverNames rest claimed
    else
      match claimServers serverNames entry.1 (serversWithTags entry.1) claimed with
      | .error msg => .error msg
      | .ok claimed' => claimTags serversWithTags serverNames rest claimed'

/-- `validate_params`. -/
def validateParams (params : GenerateConfigParams) (serversWithTags : String → List σ)
    (serverNames : σ → Option String) : Except String Unit :=
  if params.numShards = 0 then .error "Every table must have at least one shard."
  else if (params.numReplicas.map Prod.snd).sum = 0 then .error zeroReplicasMessage
  else if params.numShards > 32 then .error "Maximum number of shards is 32."
  else
    match params.numReplicas.lookup params.primaryReplicaTag with
    | none => .error (primaryTagMessage params.primaryReplicaTag)
    | some 0 => .error (primaryTagMessage params.primaryReplicaTag)
    | some _ => claimTags serversWithTags serverNames params.numReplicas []

end Validate

/-! ### The servers' pairings -/

/-- `sp.pairings`: the pairings with every shard, inserted in shard order. -/
def shardPairings (cost : Nat → ℚ) (numShards : Nat) : List Pairing :=
  (List.range numShards).foldl
    (fun pairings shard => pairings.orderedInsert Pairing.lt ⟨cost shard, shard⟩) []

/-- The map `pairings` of one tag, in server order. -/
def tagPairings (cost : σ → Nat → ℚ) (serverUsage : σ → Option Int) (numShards : Nat)
    (servers : List σ) : List (ServerPairings σ) :=
  servers.map fun server =>
    ⟨0, shardPairings (cost server) numShards, (serverUsage server).getD 0, server⟩

/-- The multiset given to `pick_best_pairings`: the groups with pairings, inserted in order. -/
def multisetOf (pairings : List (ServerPairings σ)) : List (Group σ) :=
  pairings.foldl (fun s sp => insertIfNonempty sp s) []

/-- What the primary callback does to `pairings[server]`: the usage of a primary replica, and
the pairing with the shard erased. -/
def ServerPairings.takePrimary (shard : Nat) (sp : ServerPairings σ) : ServerPairings σ :=
  { sp with selfUsageCost := sp.selfUsageCost + primaryUsageCost,
            pairings := sp.pairings.eraseP fun p => p.shard == shard }

/-! ### The two rounds of a tag -/

section Rounds

variable [DecidableEq σ]

/-- The callback of the primary round; `none` where its `guarantee` that the shard has no
primary replica yet fails. -/
def primaryCallback (shard : Nat) (server : σ) (config : Nat → ConfigShard σ)
    (pairings : List (ServerPairings σ)) :
    Option ((Nat → ConfigShard σ) × List (ServerPairings σ)) :=
  if (config shard).primaryReplica = none then
    some (Function.update config shard ⟨insert server (config shard).replicas, some server⟩,
      pairings.map fun sp => if sp.server = server then sp.takePrimary shard else sp)
  else none

/-- The callback of the secondary round. -/
def secondaryCallback (shard : Nat) (server : σ) (config : Nat → ConfigShard σ) :
    Nat → ConfigShard σ :=
  Function.update config shard { config shard with replicas := insert server (config shard).replicas }

/-- The primary round: one replica per shard, then its callback for each choice in order. -/
def primaryRound (numShards : Nat) (config : Nat → ConfigShard σ)
    (pairings : List (ServerPairings σ)) :
    Option ((Nat → ConfigShard σ) × List (ServerPairings σ)) :=
  (pickBestPairings numShards 1 (multisetOf pairings) primaryUsageCost).bind fun picks =>
    picks.foldlM (fun acc pick => primaryCallback pick.1 pick.2 acc.1 acc.2) (config, pairings)

/-- The secondary round with `numReplicas` replicas per shard. -/
def secondaryRound (numShards numReplicas : Nat) (config : Nat → ConfigShard σ)
    (pairings : List (ServerPairings σ)) : Option (Nat → ConfigShard σ) :=
  (pickBestPairings numShards numReplicas (multisetOf pairings) secondaryUsageCost).map
    fun picks => picks.foldl (fun config pick => secondaryCallback pick.1 pick.2 config) config

/-- The rounds of one tag with `count` replicas: the primary tag's secondary round places one
replica less. -/
def assignTag (numShards : Nat) (isPrimaryTag : Bool) (count : Nat)
    (pairings : List (ServerPairings σ)) (config : Nat → ConfigShard σ) :
    Option (Nat → ConfigShard σ) :=
  if isPrimaryTag then
    (primaryRound numShards config pairings).bind fun round =>
      secondaryRound numShards (count - 1) round.1 round.2
  else secondaryRound numShards count config pairings

end Rounds

/-! ### The table -/

section Table

variable [LinearOrder σ]

/-- The local copy `servers_with_tags`: the servers with the tag that also have a name. -/
def ServerConfigClient.serversWithTags (client : ServerConfigClient σ π) (tag : String) :
    List σ :=
  (client.serversWithTag tag).filter fun server => (client.serverIdToName server).isSome

def disconnectedMessage (name : String) : String :=
  "Can't configure table because server `" ++ name ++ "` is disconnected"

/-- The servers with one of the tags that have no peer, in the order the code meets them. -/
def disconnectedServers (client : ServerConfigClient σ π) (params : GenerateConfigParams) :
    List σ :=
  (params.numReplicas.flatMap fun entry => client.serversWithTags entry.1).filter
    fun server => (client.peerIdForServerId server).isNone

/-- For an existing table, the error naming the least disconnected server
(`*disconnected.begin()`), if there is one. -/
def disconnectedError (client : ServerConfigClient σ π) (tableId : Option ι)
    (params : GenerateConfigParams) : Option String :=
  match tableId with
  | none => none
  | some _ => (disconnectedServers client params).min?.map
      fun server => disconnectedMessage ((client.serverIdToName server).getD "")

/-- `p.backfill_cost`: nothing to copy for a new table, `3.0` for a server that has no
directory entry for the table, and otherwise the estimate from its business card. -/
def backfillCost (client : ServerConfigClient σ π) (tableId : Option ι)
    (directoryView : π × ι → Option β) (estimateCostToGetUpToDate : β → Nat → ℚ)
    (server : σ) (shard : Nat) : ℚ :=
  match tableId with
  | none => 0
  | some table =>
    match (client.peerIdForServerId server).bind fun peer => directoryView (peer, table) with
    | none => 3
    | some card => estimateCostToGetUpToDate card shard

def tooFewServersMessage (count : Nat) (tag : String) (inTag : Nat) : String :=
  "Can't put " ++ toString count ++ " replicas on servers with the tag `" ++ tag ++
    "` because there are only " ++ toString inTag ++ " servers with the tag `" ++ tag ++
    "`. It's impossible to have more replicas of the data than there are servers."

/-- The loop over `num_replicas`, with the configuration and `total_replicas` so far. -/
def assignTags (client : ServerConfigClient σ π) (cost : σ → Nat → ℚ)
    (serverUsage : σ → Option Int) (params : GenerateConfigParams) :
    List (String × Nat) → (Nat → ConfigShard σ) → Nat →
      Option (Except String ((Nat → ConfigShard σ) × Nat))
  | [], config, total => some (.ok (config, total))
  | entry :: rest, config, total =>
    if entry.2 = 0 then assignTags client cost serverUsage params rest config total
    else
      let servers := client.serversWithTags entry.1
      if servers.length < entry.2 then
        some (.error (tooFewServersMessage entry.2 entry.1 servers.length))
      else
        (assignTag params.numShards (entry.1 == params.primaryReplicaTag) entry.2
          (tagPairings cost serverUsage params.numShards servers) config).bind fun config' =>
            assignTags client cost serverUsage params rest config' (total + entry.2)

/-- The closing `guarantee`s: every shard has a primary replica and `total_replicas`
replicas. -/
def finalGuarantees (numShards total : Nat) (config : Nat → ConfigShard σ) :
    Option (List (ConfigShard σ)) :=
  let shards := (List.range numShards).map config
  if shards.all fun shard => shard.primaryReplica.isSome && shard.replicas.card == total then
    some shards
  else none

/-- `table_generate_config`; `tableId = none` is `nil_uuid()`, a table being created. -/
def tableGenerateConfig (client : ServerConfigClient σ π) (tableId : Option ι)
    (directoryView : π × ι → Option β) (serverUsage : σ → Option Int)
    (params : GenerateConfigParams) (estimateCostToGetUpToDate : β → Nat → ℚ) :
    Option (Except String (List (ConfigShard σ))) :=
  match validateParams params client.serversWithTags client.serverIdToName with
  | .error msg => some (.error msg)
  | .ok () =>
    match disconnectedError client tableId params with
    | some msg => some (.error msg)
    | none =>
      match assignTags client
          (backfillCost client tableId directoryView estimateCostToGetUpToDate) serverUsage
          params params.numReplicas (fun _ => ⟨∅, none⟩) 0 with
      | none => none
      | some (.error msg) => some (.error msg)
      | some (.ok result) => (finalGuarantees params.numShards result.2 result.1).map .ok

end Table


/-! ### What `validate_params` establishes -/

/-- Tags with replicas share no server: every two of them, in map order. -/
def TagsDisjoint (serversWithTags : String → List σ) (entries : List (String × Nat)) : Prop :=
  entries.Pairwise fun e e' =>
    e.2 ≠ 0 → e'.2 ≠ 0 → ∀ server ∈ serversWithTags e.1, server ∉ serversWithTags e'.1

section ValidateProofs

variable [DecidableEq σ]

theorem lookup_eq_none_iff_not_mem {claimed : List (σ × String)} {server : σ} :
    claimed.lookup server = none ↔ server ∉ claimed.map Prod.fst := by
  rw [List.lookup_eq_none_iff]
  simp only [bne_iff_ne, ne_eq, List.mem_map, not_exists, not_and]
  exact ⟨fun free p mem same => free p mem same.symm, fun free p mem same => free p mem same.symm⟩

/-- A passed overlap check of one tag: its servers were unclaimed, and a server unclaimed
afterwards was neither claimed before nor one of the tag's. -/
theorem claimServers_ok {serverNames : σ → Option String} {tag : String} {servers : List σ} :
    ∀ {claimed claimed' : List (σ × String)},
      claimServers serverNames tag servers claimed = .ok claimed' →
      (∀ server ∈ servers, server ∉ claimed.map Prod.fst) ∧
      ∀ server, server ∉ claimed'.map Prod.fst →
        server ∉ claimed.map Prod.fst ∧ server ∉ servers := by
  induction servers with
  | nil =>
    intro claimed claimed' ok
    cases ok
    exact ⟨fun _ mem => absurd mem List.not_mem_nil, fun _ free => ⟨free, List.not_mem_nil⟩⟩
  | cons server rest ih =>
    intro claimed claimed' ok
    simp only [claimServers] at ok
    split at ok
    · rename_i unclaimed
      have free : server ∉ claimed.map Prod.fst := lookup_eq_none_iff_not_mem.mp unclaimed
      obtain ⟨restFree, after⟩ := ih ok
      refine ⟨?_, ?_⟩
      · intro s mem
        rcases List.mem_cons.mp mem with rfl | inRest
        · exact free
        · exact fun claimedBefore => restFree s inRest (List.mem_cons_of_mem _ claimedBefore)
      · intro s unclaimedAfter
        obtain ⟨notNew, notRest⟩ := after s unclaimedAfter
        simp only [List.map_cons, List.mem_cons, not_or] at notNew
        exact ⟨notNew.2, by simp [notNew.1, notRest]⟩
    · cases ok

/-- A passed overlap check: the servers of the tags with replicas were unclaimed at the start,
and no two such tags share a server. -/
theorem claimTags_ok {serversWithTags : String → List σ} {serverNames : σ → Option String}
    {entries : List (String × Nat)} :
    ∀ {claimed : List (σ × String)}, claimTags serversWithTags serverNames entries claimed = .ok () →
      (∀ e ∈ entries, e.2 ≠ 0 → ∀ server ∈ serversWithTags e.1, server ∉ claimed.map Prod.fst) ∧
      TagsDisjoint serversWithTags entries := by
  induction entries with
  | nil => exact fun _ => ⟨fun _ mem => absurd mem List.not_mem_nil, List.Pairwise.nil⟩
  | cons entry rest ih =>
    intro claimed ok
    simp only [claimTags] at ok
    split_ifs at ok with unused
    · -- a tag without replicas claims nothing
      obtain ⟨restFree, restDisjoint⟩ := ih ok
      refine ⟨?_, List.Pairwise.cons (fun _ _ used => absurd unused used) restDisjoint⟩
      intro e mem used
      rcases List.mem_cons.mp mem with rfl | inRest
      · exact absurd unused used
      · exact restFree e inRest used
    · split at ok
      · cases ok
      · rename_i claimed' claimedOk
        obtain ⟨tagFree, after⟩ := claimServers_ok claimedOk
        obtain ⟨restFree, restDisjoint⟩ := ih ok
        refine ⟨?_, List.Pairwise.cons ?_ restDisjoint⟩
        · intro e mem used
          rcases List.mem_cons.mp mem with rfl | inRest
          · exact tagFree
          · exact fun server inTag => (after server (restFree e inRest used server inTag)).1
        · intro e inRest _ used server inTag inOther
          exact (after server (restFree e inRest used server inOther)).2 inTag

/-- Passed parameters have replicas for the primary tag and no two tags with replicas that
share a server. -/
theorem validateParams_ok {params : GenerateConfigParams} {serversWithTags : String → List σ}
    {serverNames : σ → Option String}
    (valid : validateParams params serversWithTags serverNames = .ok ()) :
    (∃ count, (params.primaryReplicaTag, count) ∈ params.numReplicas ∧ count ≠ 0) ∧
      TagsDisjoint serversWithTags params.numReplicas := by
  simp only [validateParams] at valid
  split_ifs at valid
  -- the primary tag's count, looked up in the map
  cases found : params.numReplicas.lookup params.primaryReplicaTag with
  | none =>
    rw [found] at valid
    cases valid
  | some count =>
    rw [found] at valid
    cases count with
    | zero => cases valid
    | succ count =>
      obtain ⟨before, after, split, _⟩ := List.lookup_eq_some_iff.mp found
      refine ⟨⟨count + 1, by rw [split]; simp, Nat.succ_ne_zero count⟩, ?_⟩
      exact (claimTags_ok valid).2

end ValidateProofs

/-! ### The pairs a tag offers -/

/-- Every server of a tag paired with every shard. -/
def grid (servers : List σ) (numShards : Nat) : List (σ × Nat) :=
  servers.flatMap fun server => (List.range numShards).map fun shard => (server, shard)

theorem mem_grid {servers : List σ} {numShards : Nat} {c : σ × Nat} :
    c ∈ grid servers numShards ↔ c.1 ∈ servers ∧ c.2 < numShards := by
  obtain ⟨server, shard⟩ := c
  simp [grid]

theorem nodup_grid {servers : List σ} (nodup : servers.Nodup) (numShards : Nat) :
    (grid servers numShards).Nodup := by
  refine List.nodup_flatMap.mpr ⟨fun server _ => List.nodup_range.map fun _ _ same =>
    (Prod.mk.inj same).2, nodup.imp fun differ => ?_⟩
  intro c inRow inRow'
  simp only [List.mem_map] at inRow inRow'
  obtain ⟨_, _, rfl⟩ := inRow
  obtain ⟨_, _, same⟩ := inRow'
  exact differ (Prod.mk.inj same).1.symm

theorem supply_grid (servers : List σ) {numShards k : Nat} (short : k < numShards) :
    supply (grid servers numShards) k = servers.length := by
  induction servers with
  | nil => rfl
  | cons server rest ih =>
    have row : supply ((List.range numShards).map fun shard => (server, shard)) k = 1 := by
      simp [supply, Function.comp_def,
        List.count_eq_one_of_mem List.nodup_range (List.mem_range.mpr short)]
    simp only [grid, List.flatMap_cons, supply_append] at ih ⊢
    rw [row, ih, List.length_cons, Nat.add_comm]

theorem foldl_orderedInsert_perm (cost : Nat → ℚ) : ∀ (shards : List Nat) (acc : List Pairing),
    (shards.foldl (fun pairings shard => pairings.orderedInsert Pairing.lt ⟨cost shard, shard⟩)
      acc).Perm (acc ++ shards.map fun shard => ⟨cost shard, shard⟩)
  | [], acc => by simp
  | shard :: rest, acc => by
    rw [List.foldl_cons, List.map_cons]
    refine (foldl_orderedInsert_perm cost rest _).trans ?_
    exact ((List.perm_orderedInsert _ _ acc).append_right _).trans List.perm_middle.symm

/-- A tag's pairings offer every server of the tag with every shard. -/
theorem cells_tagPairings (cost : σ → Nat → ℚ) (serverUsage : σ → Option Int)
    (numShards : Nat) (servers : List σ) :
    (cellsOf (tagPairings cost serverUsage numShards servers)).Perm (grid servers numShards) := by
  unfold cellsOf tagPairings grid
  rw [List.flatMap_map]
  apply List.Perm.flatMap_left
  intro server _
  have perm := (foldl_orderedInsert_perm (cost server) (List.range numShards) []).map
    fun p => (server, p.shard)
  simpa [ServerPairings.cells, shardPairings, List.map_map, Function.comp_def] using perm

theorem cells_foldl_insert : ∀ (sps : List (ServerPairings σ)) (acc : List (Group σ)),
    (cellsOf ((sps.foldl (fun s sp => insertIfNonempty sp s) acc).map
      Group.toServerPairings)).Perm (cellsOf (acc.map Group.toServerPairings) ++ cellsOf sps)
  | [], acc => by simp
  | sp :: rest, acc => by
    rw [List.foldl_cons]
    refine (cells_foldl_insert rest _).trans ?_
    rw [cellsOf_cons, ← List.append_assoc]
    exact ((cells_insertIfNonempty sp acc).append_right _).trans
      (List.perm_append_comm.append_right _)

/-- The multiset offers what the groups it was built from offer. -/
theorem cells_multisetOf (sps : List (ServerPairings σ)) :
    (cellsOf ((multisetOf sps).map Group.toServerPairings)).Perm (cellsOf sps) := by
  simpa [multisetOf] using cells_foldl_insert sps []

/-- `pickBestPairings_spec` for the multiset built from a list of groups. -/
theorem pickBestPairings_multisetOf (numShards numReplicas : Nat) {sps : List (ServerPairings σ)}
    (usageCost : Int) (nodup : (cellsOf sps).Nodup)
    (inRange : ∀ c ∈ cellsOf sps, c.2 < numShards)
    (enough : ∀ k < numShards, numReplicas ≤ supply (cellsOf sps) k) :
    ∃ picks, pickBestPairings numShards numReplicas (multisetOf sps) usageCost = some picks ∧
      (∀ p ∈ picks, (p.2, p.1) ∈ cellsOf sps) ∧ picks.Nodup ∧
      (∀ k, filled picks k ≤ numReplicas) ∧ ∀ k < numShards, filled picks k = numReplicas := by
  have perm := cells_multisetOf sps
  obtain ⟨picks, found, fromPool, picksNodup, atMost, full⟩ :
      ∃ picks, pickBestPairings numShards numReplicas (multisetOf sps) usageCost = some picks ∧
        (∀ p ∈ picks, (p.2, p.1) ∈ cellsOf ((multisetOf sps).map Group.toServerPairings)) ∧
        picks.Nodup ∧ (∀ k, filled picks k ≤ numReplicas) ∧
        ∀ k < numShards, filled picks k = numReplicas :=
    pickBestPairings_spec (perm.nodup_iff.mpr nodup)
      (fun c mem => inRange c (perm.mem_iff.mp mem))
      (fun k short => (supply_perm perm k).symm ▸ enough k short)
  exact ⟨picks, found, fun p mem => perm.mem_iff.mp (fromPool p mem), picksNodup, atMost, full⟩

/-! ### The primary round -/

section RoundProofs

variable [DecidableEq σ]

/-- The callback leaves a group without the chosen pair as it offered it. -/
theorem cells_takePrimary_of_not_mem {sp : ServerPairings σ} {server : σ} {shard : Nat}
    (absent : (server, shard) ∉ sp.cells) :
    (if sp.server = server then sp.takePrimary shard else sp).cells = sp.cells := by
  split_ifs with same
  · -- the server has no pairing with the shard, so nothing is erased
    have untouched : ∀ p ∈ sp.pairings, ¬ (p.shard == shard) = true := by
      intro p mem hit
      apply absent
      rw [← same]
      exact List.mem_map.mpr ⟨p, mem, by rw [beq_iff_eq.mp hit]⟩
    simp only [ServerPairings.cells, ServerPairings.takePrimary, List.eraseP_of_forall_not untouched]
  · rfl

/-- The callback takes the chosen pair out of the group that offered it. -/
theorem cells_takePrimary_of_mem {sp : ServerPairings σ} {server : σ} {shard : Nat}
    (present : (server, shard) ∈ sp.cells) :
    sp.cells.Perm
      ((server, shard) :: (if sp.server = server then sp.takePrimary shard else sp).cells) := by
  obtain ⟨p, mem, same⟩ := List.mem_map.mp present
  obtain ⟨rfl, hit⟩ := Prod.mk.inj same
  rw [if_pos rfl]
  obtain ⟨a, before, after, _, found, split, erased⟩ :=
    @List.exists_of_eraseP _ (fun q => q.shard == shard) sp.pairings p mem (by simp [hit])
  have shardOf : a.shard = shard := by simpa using found
  simp only [ServerPairings.cells, ServerPairings.takePrimary]
  rw [erased, split, List.map_append, List.map_cons, List.map_append, shardOf]
  exact List.perm_middle

theorem cellsOf_takePrimary_of_not_mem {server : σ} {shard : Nat} :
    ∀ {sps : List (ServerPairings σ)}, (server, shard) ∉ cellsOf sps →
      cellsOf (sps.map fun sp => if sp.server = server then sp.takePrimary shard else sp) =
        cellsOf sps
  | [], _ => rfl
  | sp :: rest, absent => by
    rw [cellsOf_cons, List.mem_append, not_or] at absent
    rw [List.map_cons, cellsOf_cons, cellsOf_cons, cells_takePrimary_of_not_mem absent.1,
      cellsOf_takePrimary_of_not_mem absent.2]

/-- The primary callback takes exactly the chosen pair out of what the tag's pairings offer. -/
theorem cellsOf_takePrimary {server : σ} {shard : Nat} :
    ∀ {sps : List (ServerPairings σ)}, (cellsOf sps).Nodup → (server, shard) ∈ cellsOf sps →
      (cellsOf sps).Perm ((server, shard) ::
        cellsOf (sps.map fun sp => if sp.server = server then sp.takePrimary shard else sp))
  | [], _, absent => absurd absent List.not_mem_nil
  | sp :: rest, nodup, present => by
    rw [cellsOf_cons] at nodup present
    rw [List.map_cons, cellsOf_cons, cellsOf_cons]
    obtain ⟨_, restNodup, apart⟩ := List.nodup_append.mp nodup
    by_cases here : (server, shard) ∈ sp.cells
    · -- the pair is this group's, so the later groups do not offer it
      rw [cellsOf_takePrimary_of_not_mem (fun there => apart _ here _ there rfl)]
      exact (cells_takePrimary_of_mem here).append_right _
    · rw [cells_takePrimary_of_not_mem here]
      have there := (List.mem_append.mp present).resolve_left here
      exact ((cellsOf_takePrimary restNodup there).append_left sp.cells).trans List.perm_middle

/-- The primary callbacks for distinct shards, each for a pair the pairings still offer: every
`guarantee` passes, each chosen server becomes its shard's primary and one of its replicas,
the other shards are left alone, and the chosen pairs leave the pairings. -/
theorem primaryFold_spec : ∀ (picks : List (Nat × σ)) (config : Nat → ConfigShard σ)
    (sps : List (ServerPairings σ)),
    (picks.map Prod.fst).Nodup → (∀ p ∈ picks, (config p.1).primaryReplica = none) →
    (cellsOf sps).Nodup → (∀ p ∈ picks, (p.2, p.1) ∈ cellsOf sps) →
    ∃ config' sps', picks.foldlM (fun acc pick => primaryCallback pick.1 pick.2 acc.1 acc.2)
        (config, sps) = some (config', sps') ∧
      (cellsOf sps).Perm (picks.map Prod.swap ++ cellsOf sps') ∧
      (∀ p ∈ picks, config' p.1 = ⟨insert p.2 (config p.1).replicas, some p.2⟩) ∧
      ∀ k, k ∉ picks.map Prod.fst → config' k = config k
  | [], config, sps, _, _, _, _ =>
    ⟨config, sps, rfl, by simp, fun _ mem => absurd mem List.not_mem_nil, fun _ _ => rfl⟩
  | pick :: rest, config, sps, keysNodup, unset, nodup, offered => by
    obtain ⟨shard, server⟩ := pick
    simp only [List.map_cons, List.nodup_cons] at keysNodup
    obtain ⟨fresh, restKeys⟩ := keysNodup
    have apart : ∀ p ∈ rest, p.1 ≠ shard :=
      fun p mem same => fresh (List.mem_map.mpr ⟨p, mem, same⟩)
    have first : primaryCallback shard server config sps =
        some (Function.update config shard ⟨insert server (config shard).replicas, some server⟩,
          sps.map fun sp => if sp.server = server then sp.takePrimary shard else sp) := by
      rw [primaryCallback, if_pos (unset _ List.mem_cons_self)]
    have perm := cellsOf_takePrimary nodup (offered _ List.mem_cons_self)
    -- the later picks see the updated configuration and pairings
    obtain ⟨config', sps', folded, perm', primaries, untouched⟩ := primaryFold_spec rest
      (Function.update config shard ⟨insert server (config shard).replicas, some server⟩)
      (sps.map fun sp => if sp.server = server then sp.takePrimary shard else sp) restKeys
      (fun p mem => by
        rw [Function.update_of_ne (apart p mem)]
        exact unset p (List.mem_cons_of_mem _ mem))
      (List.nodup_cons.mp (perm.nodup_iff.mp nodup)).2
      (fun p mem => by
        have inRest := perm.mem_iff.mp (offered p (List.mem_cons_of_mem _ mem))
        rcases List.mem_cons.mp inRest with same | there
        · exact absurd (Prod.mk.inj same).2 (apart p mem)
        · exact there)
    refine ⟨config', sps', ?_, perm.trans (perm'.cons _), ?_, ?_⟩
    · simp only [List.foldlM_cons, first]
      exact folded
    · intro p mem
      rcases List.mem_cons.mp mem with rfl | inRest
      · rw [untouched _ fresh, Function.update_self]
      · rw [primaries p inRest, Function.update_of_ne (apart p inRest)]
    · intro k notPicked
      simp only [List.map_cons, List.mem_cons, not_or] at notPicked
      rw [untouched k notPicked.2, Function.update_of_ne notPicked.1]

/-- The primary round on a tag's pairings: it passes, picks one primary per shard among the
tag's servers, and leaves the pairings without the chosen pairs. -/
theorem primaryRound_spec (numShards : Nat) (cost : σ → Nat → ℚ) (serverUsage : σ → Option Int)
    {servers : List σ} {config : Nat → ConfigShard σ} (nodup : servers.Nodup)
    (nonempty : servers ≠ []) (unset : ∀ k < numShards, (config k).primaryReplica = none) :
    ∃ config' sps' picks,
      primaryRound numShards config (tagPairings cost serverUsage numShards servers) =
        some (config', sps') ∧
      (grid servers numShards).Perm (picks.map Prod.swap ++ cellsOf sps') ∧
      (∀ k < numShards, filled picks k = 1) ∧
      ∀ p ∈ picks, config' p.1 = ⟨insert p.2 (config p.1).replicas, some p.2⟩ := by
  have perm := cells_tagPairings cost serverUsage numShards servers
  have gridNodup := nodup_grid nodup numShards
  obtain ⟨picks, found, fromPool, _, atMost, full⟩ :=
    pickBestPairings_multisetOf numShards 1 primaryUsageCost (perm.nodup_iff.mpr gridNodup)
      (fun c mem => (mem_grid.mp (perm.mem_iff.mp mem)).2)
      (fun k short => by
        rw [supply_perm perm, supply_grid servers short]
        exact List.length_pos_iff.mpr nonempty)
  have inRange : ∀ p ∈ picks, p.1 < numShards :=
    fun p mem => (mem_grid.mp (perm.mem_iff.mp (fromPool p mem))).2
  -- one primary per shard: the shards of the picks are distinct
  have keysNodup : (picks.map Prod.fst).Nodup := List.nodup_iff_count_le_one.mpr atMost
  obtain ⟨config', sps', folded, perm', primaries, _⟩ :=
    primaryFold_spec picks config _ keysNodup (fun p mem => unset p.1 (inRange p mem))
      (perm.nodup_iff.mpr gridNodup) fromPool
  refine ⟨config', sps', picks, ?_, perm.symm.trans perm', full, primaries⟩
  simp only [primaryRound, found, Option.bind_some]
  exact folded

/-! ### The secondary round -/

theorem secondaryFold_replicas : ∀ (picks : List (Nat × σ)) (config : Nat → ConfigShard σ)
    (k : Nat),
    (picks.foldl (fun config pick => secondaryCallback pick.1 pick.2 config) config k).replicas =
      (config k).replicas ∪ (pickedFor picks k).toFinset
  | [], config, k => by simp
  | pick :: rest, config, k => by
    rw [List.foldl_cons, secondaryFold_replicas rest, pickedFor_cons]
    simp only [secondaryCallback, Function.update_apply]
    by_cases same : k = pick.1
    · subst same
      simp [Finset.insert_union, Finset.union_insert]
    · simp [same, Ne.symm same]

theorem secondaryFold_primaryReplica : ∀ (picks : List (Nat × σ))
    (config : Nat → ConfigShard σ) (k : Nat),
    (picks.foldl (fun config pick => secondaryCallback pick.1 pick.2 config) config k).primaryReplica =
      (config k).primaryReplica
  | [], _, _ => rfl
  | pick :: rest, config, k => by
    rw [List.foldl_cons, secondaryFold_primaryReplica rest]
    simp only [secondaryCallback, Function.update_apply]
    split_ifs with same
    · subst same
      rfl
    · rfl

/-! ### One tag -/

/-- The primary tag with `count` replicas and enough servers: both rounds pass, and every
shard gains `count` distinct servers of the tag, its primary among them. -/
theorem assignTag_primary {numShards count : Nat} (cost : σ → Nat → ℚ)
    (serverUsage : σ → Option Int) {servers : List σ} {config : Nat → ConfigShard σ}
    (nodup : servers.Nodup) (positive : count ≠ 0) (enough : count ≤ servers.length)
    (unset : ∀ k < numShards, (config k).primaryReplica = none) :
    ∃ config', assignTag numShards true count (tagPairings cost serverUsage numShards servers)
        config = some config' ∧
      ∀ k < numShards, ∃ chosen : Finset σ, (∀ v ∈ chosen, v ∈ servers) ∧ chosen.card = count ∧
        (config' k).replicas = (config k).replicas ∪ chosen ∧
        ∃ p ∈ chosen, (config' k).primaryReplica = some p := by
  have nonempty : servers ≠ [] := by
    rintro rfl
    simp only [List.length_nil] at enough
    omega
  obtain ⟨config1, sps1, picks1, round1, perm1, full1, primaries⟩ :=
    primaryRound_spec numShards cost serverUsage nodup nonempty unset
  obtain ⟨_, restNodup, apart⟩ :=
    List.nodup_append.mp (perm1.nodup_iff.mp (nodup_grid nodup numShards))
  have inGrid : ∀ c ∈ cellsOf sps1, c ∈ grid servers numShards :=
    fun c mem => perm1.mem_iff.mpr (List.mem_append_right _ mem)
  have primaryInGrid : ∀ p ∈ picks1, (p.2, p.1) ∈ grid servers numShards :=
    fun p mem => perm1.mem_iff.mpr (List.mem_append_left _ (List.mem_map.mpr ⟨p, mem, rfl⟩))
  -- the secondary round still finds `count - 1` servers for every shard
  obtain ⟨picks2, found2, fromPool2, nodup2, _, full2⟩ :=
    pickBestPairings_multisetOf numShards (count - 1) secondaryUsageCost restNodup
      (fun c mem => (mem_grid.mp (inGrid c mem)).2)
      (fun k short => by
        have total := supply_perm perm1 k
        rw [supply_grid servers short, supply_append, supply_map_swap, full1 k short] at total
        omega)
  refine ⟨picks2.foldl (fun config pick => secondaryCallback pick.1 pick.2 config) config1,
    ?_, ?_⟩
  · simp only [assignTag, if_true, round1, Option.bind_some, secondaryRound, found2,
      Option.map_some]
  · intro k short
    obtain ⟨v, primaryPick⟩ : ∃ v, (k, v) ∈ picks1 := by
      have filledOnce : 0 < filled picks1 k := by
        rw [full1 k short]
        exact Nat.one_pos
      obtain ⟨p, mem, same⟩ := List.mem_map.mp (List.count_pos_iff.mp filledOnce)
      exact ⟨p.2, by rw [← same]; exact mem⟩
    have primaryConfig : config1 k = ⟨insert v (config k).replicas, some v⟩ :=
      primaries _ primaryPick
    have secondaryOf : ∀ w ∈ pickedFor picks2 k, (w, k) ∈ cellsOf sps1 :=
      fun w mem => fromPool2 (k, w) (mem_pickedFor.mp mem)
    -- the primary's pairing with the shard was erased, so it is not picked again
    have notSecondary : v ∉ (pickedFor picks2 k).toFinset := fun mem =>
      apart (v, k) (List.mem_map.mpr ⟨(k, v), primaryPick, rfl⟩) (v, k)
        (secondaryOf v (List.mem_toFinset.mp mem)) rfl
    refine ⟨insert v (pickedFor picks2 k).toFinset, ?_, ?_, ?_, v, Finset.mem_insert_self _ _, ?_⟩
    · intro w mem
      rcases Finset.mem_insert.mp mem with rfl | secondary
      · exact (mem_grid.mp (primaryInGrid _ primaryPick)).1
      · exact (mem_grid.mp (inGrid _ (secondaryOf w (List.mem_toFinset.mp secondary)))).1
    · rw [Finset.card_insert_of_notMem notSecondary,
        List.toFinset_card_of_nodup (nodup_pickedFor nodup2 k), length_pickedFor, full2 k short]
      omega
    · rw [secondaryFold_replicas, primaryConfig, Finset.insert_union, Finset.union_insert]
    · rw [secondaryFold_primaryReplica, primaryConfig]

/-- Another tag with `count` replicas and enough servers: its round passes, and every shard
gains `count` distinct servers of the tag and keeps its primary. -/
theorem assignTag_secondary {numShards count : Nat} (cost : σ → Nat → ℚ)
    (serverUsage : σ → Option Int) {servers : List σ} {config : Nat → ConfigShard σ}
    (nodup : servers.Nodup) (enough : count ≤ servers.length) :
    ∃ config', assignTag numShards false count (tagPairings cost serverUsage numShards servers)
        config = some config' ∧
      ∀ k < numShards, ∃ chosen : Finset σ, (∀ v ∈ chosen, v ∈ servers) ∧ chosen.card = count ∧
        (config' k).replicas = (config k).replicas ∪ chosen ∧
        (config' k).primaryReplica = (config k).primaryReplica := by
  have perm := cells_tagPairings cost serverUsage numShards servers
  obtain ⟨picks, found, fromPool, picksNodup, _, full⟩ :=
    pickBestPairings_multisetOf numShards count secondaryUsageCost
      (perm.nodup_iff.mpr (nodup_grid nodup numShards))
      (fun c mem => (mem_grid.mp (perm.mem_iff.mp mem)).2)
      (fun k short => by
        rw [supply_perm perm, supply_grid servers short]
        exact enough)
  refine ⟨picks.foldl (fun config pick => secondaryCallback pick.1 pick.2 config) config, ?_, ?_⟩
  · simp only [assignTag, Bool.false_eq_true, if_false, secondaryRound, found, Option.map_some]
  · intro k short
    refine ⟨(pickedFor picks k).toFinset, ?_, ?_, secondaryFold_replicas picks config k,
      secondaryFold_primaryReplica picks config k⟩
    · intro w mem
      have picked := fromPool (k, w) (mem_pickedFor.mp (List.mem_toFinset.mp mem))
      exact (mem_grid.mp (perm.mem_iff.mp picked)).1
    · rw [List.toFinset_card_of_nodup (nodup_pickedFor picksNodup k), length_pickedFor,
        full k short]

end RoundProofs

/-! ### The loop over the tags -/

section TagProofs

variable [DecidableEq σ]

/-- What the tags processed so far (`done`) have placed on every shard below `numShards`:
`total` replicas, each a server of a processed tag with replicas, `e.2` of them from each such
tag `e`, and a primary replica of the primary tag exactly once that tag has been processed. -/
structure Placed (serversWithTags : String → List σ) (numShards : Nat) (primaryTag : String)
    (done : List (String × Nat)) (config : Nat → ConfigShard σ) (total : Nat) : Prop where
  total_eq : total = (done.map Prod.snd).sum
  card_eq : ∀ k < numShards, (config k).replicas.card = total
  from_tags : ∀ k < numShards, ∀ v ∈ (config k).replicas,
    ∃ e ∈ done, e.2 ≠ 0 ∧ v ∈ serversWithTags e.1
  per_tag : ∀ k < numShards, ∀ e ∈ done, e.2 ≠ 0 →
    ((config k).replicas.filter (· ∈ serversWithTags e.1)).card = e.2
  primary_set : (∃ e ∈ done, e.1 = primaryTag ∧ e.2 ≠ 0) → ∀ k < numShards,
    ∃ p, (config k).primaryReplica = some p ∧ p ∈ (config k).replicas ∧
      p ∈ serversWithTags primaryTag
  primary_unset : (¬ ∃ e ∈ done, e.1 = primaryTag ∧ e.2 ≠ 0) → ∀ k < numShards,
    (config k).primaryReplica = none

variable {serversWithTags : String → List σ} {numShards : Nat} {primaryTag : String}
  {done : List (String × Nat)} {config config' : Nat → ConfigShard σ} {total : Nat}

theorem placed_init :
    Placed serversWithTags numShards primaryTag [] (fun _ => ⟨∅, none⟩) 0 where
  total_eq := rfl
  card_eq _ _ := rfl
  from_tags _ _ _ mem := absurd mem (Finset.notMem_empty _)
  per_tag _ _ _ mem := absurd mem List.not_mem_nil
  primary_set := fun ⟨_, mem, _⟩ => absurd mem List.not_mem_nil
  primary_unset _ _ _ := rfl

/-- A tag without replicas places nothing. -/
theorem Placed.skip (placed : Placed serversWithTags numShards primaryTag done config total)
    {e : String × Nat} (unused : e.2 = 0) :
    Placed serversWithTags numShards primaryTag (done ++ [e]) config total where
  total_eq := by simp [placed.total_eq, unused]
  card_eq := placed.card_eq
  from_tags k short v mem := by
    obtain ⟨d, dMem, used, inTag⟩ := placed.from_tags k short v mem
    exact ⟨d, List.mem_append_left _ dMem, used, inTag⟩
  per_tag k short d mem used := by
    rcases List.mem_append.mp mem with old | new
    · exact placed.per_tag k short d old used
    · rw [List.mem_singleton.mp new] at used
      exact absurd unused used
  primary_set := fun ⟨d, mem, primary, used⟩ => by
    rcases List.mem_append.mp mem with old | new
    · exact placed.primary_set ⟨d, old, primary, used⟩
    · rw [List.mem_singleton.mp new] at used
      exact absurd unused used
  primary_unset notDone := placed.primary_unset fun ⟨d, mem, primary, used⟩ =>
    notDone ⟨d, List.mem_append_left _ mem, primary, used⟩

/-- A tag `e` with replicas, sharing no server with the tags processed before it and not one
of them, that gives every shard `e.2` new servers of its own (and the primary, when it is the
primary tag): what it places adds up with what was placed before. -/
theorem Placed.add (placed : Placed serversWithTags numShards primaryTag done config total)
    {e : String × Nat} (used : e.2 ≠ 0)
    (apart : ∀ d ∈ done, d.2 ≠ 0 → ∀ v ∈ serversWithTags e.1, v ∉ serversWithTags d.1)
    (fresh : e.1 ∉ done.map Prod.fst)
    (gains : ∀ k < numShards, ∃ chosen : Finset σ, (∀ v ∈ chosen, v ∈ serversWithTags e.1) ∧
      chosen.card = e.2 ∧ (config' k).replicas = (config k).replicas ∪ chosen ∧
      if e.1 = primaryTag then ∃ p ∈ chosen, (config' k).primaryReplica = some p
      else (config' k).primaryReplica = (config k).primaryReplica) :
    Placed serversWithTags numShards primaryTag (done ++ [e]) config' (total + e.2) := by
  -- the old replicas of a shard are servers of earlier tags, so none is a server of `e`
  have oldApart : ∀ k < numShards, ∀ v ∈ (config k).replicas, v ∉ serversWithTags e.1 := by
    intro k short v mem inTag
    obtain ⟨d, dMem, dUsed, inOld⟩ := placed.from_tags k short v mem
    exact apart d dMem dUsed v inTag inOld
  have notDone : ∀ d ∈ done, d.1 ≠ e.1 :=
    fun d mem same => fresh (List.mem_map.mpr ⟨d, mem, same⟩)
  refine ⟨by simp [placed.total_eq], ?_, ?_, ?_, ?_, ?_⟩
  · intro k short
    obtain ⟨chosen, inTag, card, replicas, _⟩ := gains k short
    have disjoint : Disjoint (config k).replicas chosen :=
      Finset.disjoint_left.mpr fun v old new => oldApart k short v old (inTag v new)
    rw [replicas, Finset.card_union_of_disjoint disjoint, placed.card_eq k short, card]
  · intro k short v mem
    obtain ⟨chosen, inTag, _, replicas, _⟩ := gains k short
    rw [replicas, Finset.mem_union] at mem
    rcases mem with old | new
    · obtain ⟨d, dMem, dUsed, inOld⟩ := placed.from_tags k short v old
      exact ⟨d, List.mem_append_left _ dMem, dUsed, inOld⟩
    · exact ⟨e, List.mem_append_right _ (List.mem_singleton_self e), used, inTag v new⟩
  · intro k short d mem dUsed
    obtain ⟨chosen, inTag, card, replicas, _⟩ := gains k short
    rw [replicas, Finset.filter_union]
    rcases List.mem_append.mp mem with old | new
    · -- an earlier tag keeps its count: the new servers are not its servers
      have none : chosen.filter (· ∈ serversWithTags d.1) = ∅ :=
        Finset.filter_false_of_mem fun v new => apart d old dUsed v (inTag v new)
      rw [none, Finset.union_empty]
      exact placed.per_tag k short d old dUsed
    · -- the new tag counts exactly the new servers
      rw [List.mem_singleton.mp new]
      have none : (config k).replicas.filter (· ∈ serversWithTags e.1) = ∅ :=
        Finset.filter_false_of_mem (oldApart k short)
      rw [none, Finset.empty_union, Finset.filter_true_of_mem inTag, card]
  · rintro ⟨d, mem, primary, dUsed⟩ k short
    obtain ⟨chosen, inTag, _, replicas, primaryOf⟩ := gains k short
    rcases List.mem_append.mp mem with old | new
    · -- the primary was placed before, and `e` is not the primary tag
      have notPrimary : e.1 ≠ primaryTag := fun same => notDone d old (primary.trans same.symm)
      rw [if_neg notPrimary] at primaryOf
      obtain ⟨p, set, inReplicas, inPrimaryTag⟩ := placed.primary_set ⟨d, old, primary, dUsed⟩ k short
      exact ⟨p, primaryOf.trans set, by rw [replicas]; exact Finset.mem_union_left _ inReplicas,
        inPrimaryTag⟩
    · rw [List.mem_singleton.mp new] at primary
      rw [if_pos primary] at primaryOf
      obtain ⟨p, chosenP, set⟩ := primaryOf
      exact ⟨p, set, by rw [replicas]; exact Finset.mem_union_right _ chosenP,
        primary ▸ inTag p chosenP⟩
  · intro notDoneYet k short
    obtain ⟨_, _, _, _, primaryOf⟩ := gains k short
    have notPrimary : e.1 ≠ primaryTag := fun same =>
      notDoneYet ⟨e, List.mem_append_right _ (List.mem_singleton_self e), same, used⟩
    rw [if_neg notPrimary] at primaryOf
    rw [primaryOf]
    exact placed.primary_unset (fun ⟨d, mem, primary, dUsed⟩ =>
      notDoneYet ⟨d, List.mem_append_left _ mem, primary, dUsed⟩) k short

end TagProofs

/-! ### The table -/

section TableProofs

variable [LinearOrder σ]

/-- The servers with a tag are distinct: a filtered `std::set`. -/
theorem ServerConfigClient.nodup_serversWithTags (client : ServerConfigClient σ π)
    (tag : String) : (client.serversWithTags tag).Nodup :=
  ((client.ascending tag).filter _).imp ne_of_lt

/-- The loop over the tags, from any point where the tags before have placed what `Placed`
says: with the overlap check passed, distinct tags and enough servers in every tag, it returns
and has placed every tag. -/
theorem assignTags_spec (client : ServerConfigClient σ π) (cost : σ → Nat → ℚ)
    (serverUsage : σ → Option Int) (params : GenerateConfigParams)
    (disjoint : TagsDisjoint client.serversWithTags params.numReplicas)
    (keysNodup : (params.numReplicas.map Prod.fst).Nodup)
    (enough : ∀ e ∈ params.numReplicas, e.2 ≤ (client.serversWithTags e.1).length) :
    ∀ (rest done : List (String × Nat)) (config : Nat → ConfigShard σ) (total : Nat),
      done ++ rest = params.numReplicas →
      Placed client.serversWithTags params.numShards params.primaryReplicaTag done config total →
      ∃ config' total', assignTags client cost serverUsage params rest config total =
          some (.ok (config', total')) ∧
        Placed client.serversWithTags params.numShards params.primaryReplicaTag
          params.numReplicas config' total' := by
  intro rest
  induction rest with
  | nil =>
    intro done config total split placed
    rw [List.append_nil] at split
    exact ⟨config, total, rfl, split ▸ placed⟩
  | cons e rest ih =>
    intro done config total split placed
    have next : (done ++ [e]) ++ rest = params.numReplicas := by
      rw [List.append_assoc]
      exact split
    have mem : e ∈ params.numReplicas := split ▸ List.mem_append_right _ List.mem_cons_self
    simp only [assignTags]
    by_cases unused : e.2 = 0
    · rw [if_pos unused]
      exact ih (done ++ [e]) config total next (placed.skip unused)
    · rw [if_neg unused, if_neg (not_lt.mpr (enough e mem))]
      -- `e` shares no server with, and is none of, the tags processed before it
      rw [← split] at disjoint keysNodup
      have apart : ∀ d ∈ done, d.2 ≠ 0 →
          ∀ v ∈ client.serversWithTags e.1, v ∉ client.serversWithTags d.1 :=
        fun d dMem dUsed v inTag inOld =>
          (List.pairwise_append.mp disjoint).2.2 d dMem e List.mem_cons_self dUsed unused v
            inOld inTag
      have fresh : e.1 ∉ done.map Prod.fst := by
        rw [List.map_append] at keysNodup
        intro inDone
        exact (List.nodup_append.mp keysNodup).2.2 _ inDone _
          (List.mem_map.mpr ⟨e, List.mem_cons_self, rfl⟩) rfl
      have nodup := client.nodup_serversWithTags e.1
      by_cases primary : e.1 = params.primaryReplicaTag
      · -- the primary tag: no primary replica has been placed yet
        have unset := placed.primary_unset fun ⟨d, dMem, dPrimary, _⟩ =>
          fresh (List.mem_map.mpr ⟨d, dMem, dPrimary.trans primary.symm⟩)
        obtain ⟨config', assigned, gains⟩ :=
          assignTag_primary cost serverUsage nodup unused (enough e mem) unset
        rw [beq_iff_eq.mpr primary, assigned, Option.bind_some]
        exact ih (done ++ [e]) config' (total + e.2) next
          (placed.add unused apart fresh fun k short => by
            obtain ⟨chosen, inTag, card, replicas, primaryOf⟩ := gains k short
            exact ⟨chosen, inTag, card, replicas, by rw [if_pos primary]; exact primaryOf⟩)
      · obtain ⟨config', assigned, gains⟩ :=
          assignTag_secondary cost serverUsage nodup (enough e mem)
        rw [beq_false_of_ne primary, assigned, Option.bind_some]
        exact ih (done ++ [e]) config' (total + e.2) next
          (placed.add unused apart fresh fun k short => by
            obtain ⟨chosen, inTag, card, replicas, primaryOf⟩ := gains k short
            exact ⟨chosen, inTag, card, replicas, by rw [if_neg primary]; exact primaryOf⟩)

/-- With every server of the tags connected, or for a new table, the connectivity check
passes. -/
theorem disconnectedError_none {client : ServerConfigClient σ π} {tableId : Option ι}
    {params : GenerateConfigParams}
    (connected : tableId.isSome → ∀ e ∈ params.numReplicas,
      ∀ server ∈ client.serversWithTags e.1, (client.peerIdForServerId server).isSome) :
    disconnectedError client tableId params = none := by
  cases tableId with
  | none => rfl
  | some table =>
    have empty : disconnectedServers client params = [] := by
      apply List.filter_eq_nil_iff.mpr
      intro server mem
      obtain ⟨e, eMem, inTag⟩ := List.mem_flatMap.mp mem
      simpa [Option.isSome_iff_ne_none] using connected rfl e eMem server inTag
    simp [disconnectedError, empty]

/-- Once every tag is placed, with the primary tag among them, the closing `guarantee`s
hold. -/
theorem finalGuarantees_of_placed {serversWithTags : String → List σ} {numShards : Nat}
    {primaryTag : String} {entries : List (String × Nat)} {config : Nat → ConfigShard σ}
    {total : Nat} (placed : Placed serversWithTags numShards primaryTag entries config total)
    (primaryDone : ∃ e ∈ entries, e.1 = primaryTag ∧ e.2 ≠ 0) :
    finalGuarantees numShards total config = some ((List.range numShards).map config) := by
  unfold finalGuarantees
  rw [if_pos]
  simp only [List.all_eq_true, List.mem_map, List.mem_range]
  rintro _ ⟨k, short, rfl⟩
  obtain ⟨p, set, _, _⟩ := placed.primary_set primaryDone k short
  simp [set, placed.card_eq k short]

/-- Replica assignment.  For parameters that pass `validate_params`, with at least
`num_replicas[t]` connected servers in every tag `t`, for a new table or one whose tags'
servers are all connected: `table_generate_config` returns `true` (every round of
`pick_best_pairings` returns, so none takes `begin()` of an empty multiset, and every
`guarantee` holds), with one entry per shard; every shard gets `Σ num_replicas[t]` distinct
replicas, exactly `num_replicas[t]` from each tag `t` with replicas and all from such tags, and
a primary replica among them from the primary tag. -/
theorem generated_config_valid (client : ServerConfigClient σ π) (tableId : Option ι)
    (directoryView : π × ι → Option β) (serverUsage : σ → Option Int)
    (params : GenerateConfigParams) (estimateCostToGetUpToDate : β → Nat → ℚ)
    (valid : validateParams params client.serversWithTags client.serverIdToName = .ok ())
    (enough : ∀ e ∈ params.numReplicas, e.2 ≤ ((client.serversWithTags e.1).filter
      fun server => (client.peerIdForServerId server).isSome).length)
    (connected : tableId.isSome → ∀ e ∈ params.numReplicas,
      ∀ server ∈ client.serversWithTags e.1, (client.peerIdForServerId server).isSome) :
    ∃ shards, tableGenerateConfig client tableId directoryView serverUsage params
        estimateCostToGetUpToDate = some (.ok shards) ∧
      shards.length = params.numShards ∧
      ∀ shard ∈ shards,
        shard.replicas.card = (params.numReplicas.map Prod.snd).sum ∧
        (∀ e ∈ params.numReplicas, e.2 ≠ 0 →
          (shard.replicas.filter (· ∈ client.serversWithTags e.1)).card = e.2) ∧
        (∀ server ∈ shard.replicas,
          ∃ e ∈ params.numReplicas, e.2 ≠ 0 ∧ server ∈ client.serversWithTags e.1) ∧
        ∃ primary, shard.primaryReplica = some primary ∧ primary ∈ shard.replicas ∧
          primary ∈ client.serversWithTags params.primaryReplicaTag := by
  obtain ⟨⟨count, primaryMem, primaryUsed⟩, disjoint⟩ := validateParams_ok valid
  have keysNodup : (params.numReplicas.map Prod.fst).Nodup := params.ascending.imp String.ne_of_lt
  have enoughServers : ∀ e ∈ params.numReplicas, e.2 ≤ (client.serversWithTags e.1).length :=
    fun e mem => (enough e mem).trans (List.length_filter_le _ _)
  obtain ⟨config, total, assigned, placed⟩ :=
    assignTags_spec client (backfillCost client tableId directoryView estimateCostToGetUpToDate)
      serverUsage params disjoint keysNodup enoughServers params.numReplicas [] _ 0 rfl
      placed_init
  have primaryDone : ∃ e ∈ params.numReplicas, e.1 = params.primaryReplicaTag ∧ e.2 ≠ 0 :=
    ⟨_, primaryMem, rfl, primaryUsed⟩
  refine ⟨(List.range params.numShards).map config, ?_, by simp, ?_⟩
  · simp only [tableGenerateConfig, valid, disconnectedError_none connected, assigned,
      finalGuarantees_of_placed placed primaryDone, Option.map_some]
  · intro shard mem
    obtain ⟨k, inRange, rfl⟩ := List.mem_map.mp mem
    have short := List.mem_range.mp inRange
    obtain ⟨p, set, inReplicas, inTag⟩ := placed.primary_set primaryDone k short
    exact ⟨by rw [placed.card_eq k short, placed.total_eq], placed.per_tag k short,
      placed.from_tags k short, p, set, inReplicas, inTag⟩

end TableProofs

/-! ### Runs on small inputs -/

/-- Two named, connected servers with every tag. -/
def twoServers : ServerConfigClient Nat Unit where
  serverIdToName server := if server = 1 then some "a" else if server = 2 then some "b" else none
  serversWithTag _ := [1, 2]
  ascending _ := by decide
  peerIdForServerId _ := some ()

/-- Two shards with two replicas each, from the tag `default`. -/
def twoReplicas : GenerateConfigParams where
  numShards := 2
  numReplicas := [("default", 2)]
  primaryReplicaTag := "default"
  ascending := by decide

theorem generated_config_valid_two_servers :
    ∃ shards, tableGenerateConfig twoServers (some ()) (fun _ => (none : Option Unit))
        (fun _ => none) twoReplicas (fun _ _ => 0) = some (.ok shards) ∧
      shards.length = twoReplicas.numShards ∧
      ∀ shard ∈ shards,
        shard.replicas.card = (twoReplicas.numReplicas.map Prod.snd).sum ∧
        (∀ e ∈ twoReplicas.numReplicas, e.2 ≠ 0 →
          (shard.replicas.filter (· ∈ twoServers.serversWithTags e.1)).card = e.2) ∧
        (∀ server ∈ shard.replicas,
          ∃ e ∈ twoReplicas.numReplicas, e.2 ≠ 0 ∧ server ∈ twoServers.serversWithTags e.1) ∧
        ∃ primary, shard.primaryReplica = some primary ∧ primary ∈ shard.replicas ∧
          primary ∈ twoServers.serversWithTags twoReplicas.primaryReplicaTag :=
  generated_config_valid twoServers (some ()) (fun _ => none) (fun _ => none) twoReplicas
    (fun _ _ => 0) (by decide) (by decide) (by decide)

/-- Each server is the primary of one shard and the secondary of the other. -/
example :
    tableGenerateConfig twoServers (none : Option Unit) (fun _ => (none : Option Unit))
        (fun _ => none) twoReplicas (fun _ _ => 0) =
      some (.ok [⟨{2, 1}, some 1⟩, ⟨{1, 2}, some 2⟩]) := by
  decide

/-- Two named servers with every tag, of which only server 1 is connected. -/
def halfConnected : ServerConfigClient Nat Unit where
  serverIdToName server := if server = 1 then some "a" else if server = 2 then some "b" else none
  serversWithTag _ := [1, 2]
  ascending _ := by decide
  peerIdForServerId server := if server = 1 then some () else none

/-- One shard with one replica, from the tag `default`. -/
def oneReplica : GenerateConfigParams where
  numShards := 1
  numReplicas := [("default", 1)]
  primaryReplicaTag := "default"
  ascending := by decide

/-- Server 1, with both tags `a` and `b`. -/
def sharedServer : ServerConfigClient Nat Unit where
  serverIdToName server := if server = 1 then some "a" else none
  serversWithTag _ := [1]
  ascending _ := by decide
  peerIdForServerId _ := some ()

/-- One replica from the tag `a`, none from the tag `b`. -/
def unusedTag : GenerateConfigParams where
  numShards := 1
  numReplicas := [("a", 1), ("b", 0)]
  primaryReplicaTag := "a"
  ascending := by decide

/-- Two runs where the parameters pass `validate_params` and every tag has enough connected
servers.  Reconfiguring an existing table fails, because the other server with the tag is
disconnected.  And a tag with no replicas is not checked for overlap, so the replica taken
from the tag `a` is also a server of the tag `b`, which asked for none. -/
theorem generate_config_disconnected_or_shared :
    (validateParams oneReplica halfConnected.serversWithTags halfConnected.serverIdToName =
        .ok () ∧
      (∀ e ∈ oneReplica.numReplicas, e.2 ≤ ((halfConnected.serversWithTags e.1).filter
        fun server => (halfConnected.peerIdForServerId server).isSome).length) ∧
      tableGenerateConfig halfConnected (some ()) (fun _ => (none : Option Unit))
          (fun _ => none) oneReplica (fun _ _ => 0) =
        some (.error (disconnectedMessage "b"))) ∧
    (validateParams unusedTag sharedServer.serversWithTags sharedServer.serverIdToName =
        .ok () ∧
      (∀ e ∈ unusedTag.numReplicas, e.2 ≤ ((sharedServer.serversWithTags e.1).filter
        fun server => (sharedServer.peerIdForServerId server).isSome).length) ∧
      tableGenerateConfig sharedServer (none : Option Unit) (fun _ => (none : Option Unit))
          (fun _ => none) unusedTag (fun _ _ => 0) = some (.ok [⟨{1}, some 1⟩]) ∧
      (({1} : Finset Nat).filter (· ∈ sharedServer.serversWithTags "b")).card = 1) :=
  ⟨⟨by decide, by decide, by decide⟩, ⟨by decide, by decide, by decide, by decide⟩⟩

end RethinkDB.Clustering
