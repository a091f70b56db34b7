import Mathlib
import RethinkDB.Btree.Keys
import RethinkDB.Foundations.BinarySearch

/-!
# Searching a leaf node

A leaf node of `btree/leaf_node.cc` keeps its entries in the order of `pair_offsets`, sorted
by key.  An entry is a live key/value pair or a deletion entry that keeps only the key; the
search reads the key of both.  `leaf::find_key` is a binary search over the entries that
returns whether an entry has the key and its index, or else the index the key would be
inserted at (`BinarySearch.findIndex`).  The iterators step over deletion entries in both
directions, and `inclusive_lower_bound` and `exclusive_upper_bound` start them from the index
`find_key` returns.

Over strictly increasing keys the search finds exactly the entries with the key, a miss
returns the number of smaller keys (`findKey_snd_of_miss`), and so the two bounds are the first
live entry at or above the key and the last live entry below it
(`inclusiveLowerBound_spec`, `exclusiveUpperBound_spec`).  The live entry with the key itself
that `exclusive_upper_bound` tests for is skipped by the same step as any other start, so its
two branches agree (`exclusiveUpperBound_eq`).
-/

namespace RethinkDB
namespace Btree
namespace Leaf

/-- An entry that `pair_offsets` points at, as the search and the iterators read it: its key
(`entry_key`) and whether it is live (`entry_is_live`) or a deletion entry. -/
structure Entry where
  key : StoreKey
  live : Bool
  deriving DecidableEq

/-- `leaf_node_t`, as its entries in the order of `pair_offsets`. -/
structure LeafNode where
  entries : List Entry
  deriving DecidableEq

/-- `num_pairs`. -/
def LeafNode.numPairs (node : LeafNode) : Nat := node.entries.length

/-- `btree_key_cmp(key, entry_key(entry))`, the comparison `find_key` steers by. -/
def keyProbe (key : StoreKey) (entry : Entry) : Int := sizedStrcmp key.contents entry.key.contents

/-- `leaf::find_key`: whether an entry has `key`, and its index or the index `key` would be
inserted at. -/
def findKey (node : LeafNode) (key : StoreKey) : Bool × Nat :=
  BinarySearch.findIndex (keyProbe key) node.entries

/-- `entry_is_live` of the entry at `index`, for an index of the node. -/
def LeafNode.liveAt (node : LeafNode) (index : Int) : Bool :=
  (node.entries[index.toNat]?.map Entry.live).getD false

/-- The rest of `do { ++index_; } while (index_ < num_pairs && !entry_is_live(...))` once the
index has been stepped, with `fuel` rounds left. -/
def LeafNode.skipForward (node : LeafNode) : Nat → Int → Int
  | 0, index => index
  | fuel + 1, index =>
      if index < node.numPairs ∧ node.liveAt index = false then node.skipForward fuel (index + 1)
      else index

/-- The rest of `do { --index_; } while (index_ >= 0 && !entry_is_live(...))`. -/
def LeafNode.skipBackward (node : LeafNode) : Nat → Int → Int
  | 0, index => index
  | fuel + 1, index =>
      if 0 ≤ index ∧ node.liveAt index = false then node.skipBackward fuel (index - 1) else index

/-- `leaf::iterator::operator++`, `none` where its `guarantee` fails. -/
def LeafNode.increment (node : LeafNode) (index : Int) : Option Int :=
  if index < node.numPairs then some (node.skipForward node.numPairs (index + 1)) else none

/-- `leaf::iterator::operator--`, `none` where its `guarantee` fails.  `operator++` of
`reverse_iterator` is this. -/
def LeafNode.decrement (node : LeafNode) (index : Int) : Option Int :=
  if -1 < index then some (node.skipBackward node.numPairs (index - 1)) else none

/-- `leaf::inclusive_lower_bound`: the index of the iterator it returns. -/
def inclusiveLowerBound (key : StoreKey) (node : LeafNode) : Option Int :=
  let index := (findKey node key).2
  if index = node.numPairs ∨ node.liveAt index = true then some index
  else node.increment index

/-- `leaf::exclusive_upper_bound`: the index of the `reverse_iterator` it returns, which is
stepped once from the index `find_key` returns, in either branch. -/
def exclusiveUpperBound (key : StoreKey) (node : LeafNode) : Option Int :=
  let index := (findKey node key).2
  if index < node.numPairs ∧ node.liveAt index = true ∧
      (node.entries[index]?.map fun entry => sizedStrcmp entry.key.contents key.contents) = some 0
  then node.decrement index
  else node.decrement index

/-! ## The comparison -/

section Probe

variable {key : StoreKey} {entry : Entry}

theorem keyProbe_pos_iff : 0 < keyProbe key entry ↔ entry.key < key :=
  sizedStrcmp_pos_iff

theorem keyProbe_nonpos_iff : keyProbe key entry ≤ 0 ↔ key ≤ entry.key :=
  sizedStrcmp_nonpos_iff

theorem keyProbe_neg_iff : keyProbe key entry < 0 ↔ key < entry.key :=
  sizedStrcmp_neg_iff

theorem keyProbe_eq_zero_iff : keyProbe key entry = 0 ↔ entry.key = key := by
  rw [keyProbe, sizedStrcmp_eq_zero_iff]
  constructor
  · intro same
    exact (StoreKey.ext_contents same).symm
  · intro same
    rw [same]

/-- Strictly increasing keys order the comparison the way the search needs: positive before
any entry at or below the key. -/
theorem keyProbe_ordered {entries : List Entry} (sorted : entries.Pairwise fun a b => a.key < b.key)
    (key : StoreKey) : BinarySearch.Ordered (keyProbe key) entries := by
  apply List.Pairwise.imp _ sorted
  intro earlier later before notAbove
  apply keyProbe_pos_iff.mpr
  -- `key` is not below `later.key`, which is above `earlier.key`.
  have notBelow : ¬key < later.key := fun below =>
    absurd (keyProbe_neg_iff.mpr below) (not_lt.mpr notAbove)
  exact lt_of_lt_of_le before (not_lt.mp notBelow)

end Probe

/-! ## Stepping over deletion entries -/

section Skip

variable {node : LeafNode}

theorem liveAt_natCast {index : Nat} (bound : index < node.entries.length) :
    node.liveAt index = node.entries[index].live := by
  simp [LeafNode.liveAt, List.getElem?_eq_getElem bound]

/-- Stepping forward from `start` stops at the first live entry at or after it, or at
`num_pairs`. -/
theorem skipForward_spec :
    ∀ {fuel : Nat} {start : Int}, 0 ≤ start → start ≤ node.numPairs →
      (node.numPairs : Int) - start ≤ fuel →
      start ≤ node.skipForward fuel start ∧ node.skipForward fuel start ≤ node.numPairs ∧
        (node.skipForward fuel start < node.numPairs → node.liveAt (node.skipForward fuel start)) ∧
        ∀ j, start ≤ j → j < node.skipForward fuel start → node.liveAt j = false
  | 0, start, _, upper, enough => by
      simp only [LeafNode.skipForward]
      refine ⟨le_refl start, upper, fun below => absurd below (by omega), ?_⟩
      intro j after before
      omega
  | fuel + 1, start, nonneg, upper, enough => by
      simp only [LeafNode.skipForward]
      split_ifs with dead
      · -- A deletion entry: the loop steps on.
        have later := @skipForward_spec fuel (start + 1) (by omega) (by omega) (by omega)
        refine ⟨by omega, later.2.1, later.2.2.1, ?_⟩
        intro j after before
        rcases eq_or_lt_of_le after with same | past
        · rw [← same]
          exact dead.2
        · exact later.2.2.2 j (by omega) before
      · -- The loop stops here: the end, or a live entry.
        refine ⟨le_refl start, upper, ?_, ?_⟩
        · intro below
          by_contra notLive
          exact dead ⟨below, by simpa using notLive⟩
        · intro j after before
          omega

/-- Stepping backward from `start` stops at the last live entry at or before it, or at `-1`. -/
theorem skipBackward_spec :
    ∀ {fuel : Nat} {start : Int}, -1 ≤ start → start + 1 ≤ fuel →
      -1 ≤ node.skipBackward fuel start ∧ node.skipBackward fuel start ≤ start ∧
        (0 ≤ node.skipBackward fuel start → node.liveAt (node.skipBackward fuel start)) ∧
        ∀ j, node.skipBackward fuel start < j → j ≤ start → node.liveAt j = false
  | 0, start, lower, enough => by
      simp only [LeafNode.skipBackward]
      refine ⟨lower, le_refl start, fun nonneg => absurd nonneg (by omega), ?_⟩
      intro j after before
      omega
  | fuel + 1, start, lower, enough => by
      simp only [LeafNode.skipBackward]
      split_ifs with dead
      · have earlier := @skipBackward_spec fuel (start - 1) (by omega) (by omega)
        refine ⟨earlier.1, by omega, earlier.2.2.1, ?_⟩
        intro j after before
        rcases eq_or_lt_of_le before with same | inside
        · rw [same]
          exact dead.2
        · exact earlier.2.2.2 j after (by omega)
      · refine ⟨lower, le_refl start, ?_, ?_⟩
        · intro nonneg
          by_contra notLive
          exact dead ⟨nonneg, by simpa using notLive⟩
        · intro j after before
          omega

end Skip

/-! ## The search and the bounds -/

section Search

variable {node : LeafNode} (sorted : node.entries.Pairwise fun a b => a.key < b.key)
  (key : StoreKey)

/-- A hit is at an entry with the key, live or a deletion. -/
theorem findKey_hit {key : StoreKey} (found : (findKey node key).1 = true) :
    ∃ entry, node.entries[(findKey node key).2]? = some entry ∧ entry.key = key := by
  have hit : BinarySearch.searchIndex (keyProbe key) node.entries node.entries.length 0
      node.entries.length = (true, (findKey node key).2) := Prod.ext found rfl
  obtain ⟨entry, atIndex, zero⟩ := BinarySearch.searchIndex_sound hit
  exact ⟨entry, atIndex, keyProbe_eq_zero_iff.mp zero⟩

/-- Both branches of `exclusive_upper_bound` step the reverse iterator once from the index
`find_key` returns. -/
theorem exclusiveUpperBound_eq :
    exclusiveUpperBound key node = node.decrement (findKey node key).2 := by
  unfold exclusiveUpperBound
  exact ite_self _

include sorted

theorem findKey_fst_iff :
    (findKey node key).1 = true ↔ ∃ entry ∈ node.entries, entry.key = key := by
  rw [findKey, BinarySearch.findIndex_fst_iff (keyProbe_ordered sorted key)]
  simp only [keyProbe_eq_zero_iff]

/-- A miss returns the number of entries whose key is below `key`. -/
theorem findKey_snd_of_miss (missed : (findKey node key).1 = false) :
    (findKey node key).2 = node.entries.countP fun entry => entry.key < key := by
  rw [findKey, BinarySearch.findIndex_snd_of_miss (keyProbe_ordered sorted key) missed]
  apply List.countP_congr
  intro entry _
  simp only [decide_eq_true_eq, keyProbe_pos_iff]

/-- The index `find_key` returns has the keys below `key` before it and the others from it on. -/
theorem findKey_split :
    (findKey node key).2 ≤ node.numPairs ∧
      (∀ i (h : i < node.entries.length), i < (findKey node key).2 → node.entries[i].key < key) ∧
      ∀ i (h : i < node.entries.length), (findKey node key).2 ≤ i → key ≤ node.entries[i].key := by
  obtain ⟨bound, below, above⟩ := BinarySearch.findIndex_split (keyProbe_ordered sorted key)
  refine ⟨bound, fun i h before => keyProbe_pos_iff.mp (below i h before), ?_⟩
  intro i h after
  exact keyProbe_nonpos_iff.mp (above i h after)

/-- **`inclusive_lower_bound` is the first live entry whose key is not below `key`**, or the
end. -/
theorem inclusiveLowerBound_spec :
    ∃ r : Int, inclusiveLowerBound key node = some r ∧ 0 ≤ r ∧ r ≤ node.numPairs ∧
      (∀ i : Nat, (i : Int) = r → ∀ h : i < node.entries.length,
        node.entries[i].live = true ∧ key ≤ node.entries[i].key) ∧
      ∀ j (h : j < node.entries.length), (j : Int) < r → node.entries[j].live = true →
        node.entries[j].key < key := by
  obtain ⟨bound, below, above⟩ := findKey_split sorted key
  unfold inclusiveLowerBound
  dsimp only
  by_cases stops : (findKey node key).2 = node.numPairs ∨ node.liveAt (findKey node key).2 = true
  · -- The end, or a live entry: the iterator stays.
    rw [if_pos stops]
    refine ⟨_, rfl, by omega, by exact_mod_cast bound, ?_, ?_⟩
    · intro i same h
      have same : i = (findKey node key).2 := by exact_mod_cast same
      subst same
      have live : node.liveAt (findKey node key).2 = true := by
        rcases stops with atEnd | live
        · exact absurd h (by rw [LeafNode.numPairs] at atEnd; omega)
        · exact live
      rw [liveAt_natCast h] at live
      exact ⟨live, above _ h le_rfl⟩
    · intro j h before _
      exact below j h (by exact_mod_cast before)
  · -- A deletion entry: the iterator steps to the next live entry.
    rw [if_neg stops]
    have inside : ((findKey node key).2 : Int) < node.numPairs := by
      have : (findKey node key).2 ≠ node.numPairs := fun atEnd => stops (.inl atEnd)
      omega
    have dead : node.liveAt (findKey node key).2 = false := by
      simpa using fun live => stops (.inr live)
    have skip := @skipForward_spec node node.numPairs ((findKey node key).2 + 1) (by omega)
      (by omega) (by omega)
    obtain ⟨after, upper, stopsLive, skipped⟩ := skip
    rw [LeafNode.increment, if_pos inside]
    refine ⟨_, rfl, by omega, upper, ?_, ?_⟩
    · intro i same h
      have live := stopsLive (by rw [← same, LeafNode.numPairs]; exact_mod_cast h)
      rw [← same, liveAt_natCast h] at live
      exact ⟨live, above i h (by omega)⟩
    · intro j h before live
      rcases Nat.lt_or_ge j (findKey node key).2 with early | late
      · exact below j h early
      · -- Every entry from the found index to the stop is a deletion entry.
        have notLive : node.liveAt j = false := by
          rcases Nat.lt_or_eq_of_le late with past | same
          · exact skipped j (by omega) before
          · rw [same] at dead
            exact dead
        rw [liveAt_natCast h, live] at notLive
        cases notLive

/-- **`exclusive_upper_bound` is the last live entry whose key is below `key`**, or the
reverse end `-1`. -/
theorem exclusiveUpperBound_spec :
    ∃ r : Int, exclusiveUpperBound key node = some r ∧ -1 ≤ r ∧ r < node.numPairs ∧
      (∀ i : Nat, (i : Int) = r → ∀ h : i < node.entries.length,
        node.entries[i].live = true ∧ node.entries[i].key < key) ∧
      ∀ j (h : j < node.entries.length), r < (j : Int) → node.entries[j].live = true →
        key ≤ node.entries[j].key := by
  obtain ⟨bound, below, above⟩ := findKey_split sorted key
  have skip := @skipBackward_spec node node.numPairs ((findKey node key).2 - 1) (by omega)
    (by omega)
  obtain ⟨lower, upper, stopsLive, skipped⟩ := skip
  rw [exclusiveUpperBound_eq, LeafNode.decrement, if_pos (by omega)]
  refine ⟨_, rfl, lower, by omega, ?_, ?_⟩
  · intro i same h
    have live := stopsLive (by rw [← same]; omega)
    rw [← same, liveAt_natCast h] at live
    exact ⟨live, below i h (by omega)⟩
  · intro j h after live
    rcases Nat.lt_or_ge j (findKey node key).2 with early | late
    · -- Every entry between the stop and the found index is a deletion entry.
      have notLive := skipped j after (by omega)
      rw [liveAt_natCast h, live] at notLive
      cases notLive
    · exact above j h late

end Search

/-- **`leaf::find_key` is a binary search** over strictly increasing keys: it reports a hit
exactly when some entry, live or a deletion, has the key, at that entry's index; a miss
returns the number of smaller keys; and the two bounds built on it are the first live entry at
or above the key and the last live entry below it. -/
theorem find_key_binary_search (node : LeafNode) (key : StoreKey)
    (sorted : node.entries.Pairwise fun a b => a.key < b.key) :
    ((findKey node key).1 = true ↔ ∃ entry ∈ node.entries, entry.key = key) ∧
    ((findKey node key).1 = true →
      ∃ entry, node.entries[(findKey node key).2]? = some entry ∧ entry.key = key) ∧
    ((findKey node key).1 = false →
      (findKey node key).2 = node.entries.countP fun entry => entry.key < key) ∧
    (∃ r : Int, inclusiveLowerBound key node = some r ∧ 0 ≤ r ∧ r ≤ node.numPairs ∧
      (∀ i : Nat, (i : Int) = r → ∀ h : i < node.entries.length,
        node.entries[i].live = true ∧ key ≤ node.entries[i].key) ∧
      ∀ j (h : j < node.entries.length), (j : Int) < r → node.entries[j].live = true →
        node.entries[j].key < key) ∧
    (∃ r : Int, exclusiveUpperBound key node = some r ∧ -1 ≤ r ∧ r < node.numPairs ∧
      (∀ i : Nat, (i : Int) = r → ∀ h : i < node.entries.length,
        node.entries[i].live = true ∧ node.entries[i].key < key) ∧
      ∀ j (h : j < node.entries.length), r < (j : Int) → node.entries[j].live = true →
        key ≤ node.entries[j].key) :=
  ⟨findKey_fst_iff sorted key, findKey_hit, findKey_snd_of_miss sorted key,
    inclusiveLowerBound_spec sorted key, exclusiveUpperBound_spec sorted key⟩

/-- Keys `"\x01"`, `"\x02"` and `"\x03"`, the middle one a deletion entry. -/
def deletedMiddle : LeafNode :=
  ⟨[⟨StoreKey.ofByte 1, true⟩, ⟨StoreKey.ofByte 2, false⟩, ⟨StoreKey.ofByte 3, true⟩]⟩

/-- The key of the deletion entry. -/
def middleKey : StoreKey := StoreKey.ofByte 2

theorem find_key_binary_search_deleted_middle :
    (deletedMiddle.entries.Pairwise fun a b => a.key < b.key) ∧
    ((findKey deletedMiddle middleKey).1 = true ↔
      ∃ entry ∈ deletedMiddle.entries, entry.key = middleKey) ∧
    ((findKey deletedMiddle middleKey).1 = true →
      ∃ entry, deletedMiddle.entries[(findKey deletedMiddle middleKey).2]? = some entry ∧
        entry.key = middleKey) ∧
    ((findKey deletedMiddle middleKey).1 = false →
      (findKey deletedMiddle middleKey).2 =
        deletedMiddle.entries.countP fun entry => entry.key < middleKey) ∧
    (∃ r : Int, inclusiveLowerBound middleKey deletedMiddle = some r ∧ 0 ≤ r ∧
      r ≤ deletedMiddle.numPairs ∧
      (∀ i : Nat, (i : Int) = r → ∀ h : i < deletedMiddle.entries.length,
        deletedMiddle.entries[i].live = true ∧ middleKey ≤ deletedMiddle.entries[i].key) ∧
      ∀ j (h : j < deletedMiddle.entries.length), (j : Int) < r →
        deletedMiddle.entries[j].live = true → deletedMiddle.entries[j].key < middleKey) ∧
    (∃ r : Int, exclusiveUpperBound middleKey deletedMiddle = some r ∧ -1 ≤ r ∧
      r < deletedMiddle.numPairs ∧
      (∀ i : Nat, (i : Int) = r → ∀ h : i < deletedMiddle.entries.length,
        deletedMiddle.entries[i].live = true ∧ deletedMiddle.entries[i].key < middleKey) ∧
      ∀ j (h : j < deletedMiddle.entries.length), r < (j : Int) →
        deletedMiddle.entries[j].live = true → middleKey ≤ deletedMiddle.entries[j].key) :=
  ⟨by decide, find_key_binary_search deletedMiddle middleKey (by decide)⟩

example : findKey deletedMiddle middleKey = (true, 1) ∧
    inclusiveLowerBound middleKey deletedMiddle = some 2 ∧
    exclusiveUpperBound middleKey deletedMiddle = some 0 := by
  decide

end Leaf
end Btree
end RethinkDB
