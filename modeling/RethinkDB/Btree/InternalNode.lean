import Mathlib
import RethinkDB.Btree.Keys

namespace RethinkDB
namespace Btree

/-!
# Internal nodes of the B-tree

An internal node (`btree/internal_node.cc`) is an array `pair_offsets` of offsets into a heap
of `btree_internal_pair`s, each a child block and a key, at the back of the block.  The
pairs are in key order except the last, whose key is the empty key: a child `i` holds the
keys above the key of pair `i - 1` and up to the key of pair `i`, and the last child holds
everything above.  `get_offset_index` finds the pair of a key with `std::lower_bound` over
all pairs but the last.

The heap is modelled by `frontmost_offset` alone, and `pair_offsets` by the list of pairs
it points to: where in the heap a pair lies is only the business of `memmove`.
`impl::insert_pair` and `impl::delete_pair` move `frontmost_offset`, and
`impl::insert_offset` and `impl::delete_offset` change the list.  The `rassert`s of
`validate` are the predicate `Valid`, together with the heap holding exactly the pairs.
-/

/-- `block_id_t`. -/
abbrev BlockId := Nat

/-- `btree_internal_pair`: a child and its key. -/
structure InternalPair where
  lnode : BlockId
  key : StoreKey
  deriving DecidableEq

instance : Inhabited InternalPair := ⟨⟨0, StoreKey.min⟩⟩

/-- `internal_node_t`: the pairs `pair_offsets` points to, in its order (so `npairs` is their
number), and `frontmost_offset`, where the heap of pairs begins. -/
structure InternalNode where
  pairs : List InternalPair
  frontmostOffset : Nat
  deriving DecidableEq

namespace InternalNode

/-- `sizeof(internal_node_t)`: the magic, `npairs` and `frontmost_offset`. -/
def headerSize : Nat := 8

/-- `sizeof(*node->pair_offsets)`. -/
def offsetSize : Nat := 2

/-- `impl::pair_size_with_key_size`: the child, the key's size byte and its contents. -/
def pairSizeWithKeySize (size : Nat) : Nat := 8 + 1 + size

/-- `pair_size`. -/
def pairSize (pair : InternalPair) : Nat := pairSizeWithKeySize pair.key.contents.length

/-- `INTERNAL_EPSILON`: `sizeof(btree_key_t) + MAX_KEY_SIZE + sizeof(block_id_t)`. -/
def internalEpsilon : Nat := 1 + maxKeySize + 8

/-- `init`: no pairs, and the heap starts at the end of the block. -/
def init (blockSize : Nat) : InternalNode := ⟨[], blockSize⟩

/-- `get_pair_by_index`. -/
def getPairByIndex (node : InternalNode) (index : Nat) : InternalPair := node.pairs.getD index default

/-- `internal_key_comp` of a pair against the key searched for: the pair's key is below it. -/
def keyBelow (key : StoreKey) (pair : InternalPair) : Bool :=
  sizedStrcmp pair.key.contents key.contents < 0

/-- `get_offset_index`: `std::lower_bound` over all pairs but the last, that is the first of
them whose key is not below `key`, or the last pair. -/
def getOffsetIndex (node : InternalNode) (key : StoreKey) : Nat :=
  (node.pairs.take (node.pairs.length - 1)).findIdx fun pair => !keyBelow key pair

/-- `lookup`. -/
def lookup (node : InternalNode) (key : StoreKey) : BlockId :=
  (node.getPairByIndex (node.getOffsetIndex key)).lnode

/-- `nodecmp`: the first keys of two nodes. -/
def nodecmp (node1 node2 : InternalNode) : Int :=
  sizedStrcmp (node1.getPairByIndex 0).key.contents (node2.getPairByIndex 0).key.contents

/-- `is_full`: no room for one more offset and a pair with a key of `MAX_KEY_SIZE`. -/
def isFull (node : InternalNode) : Bool :=
  headerSize + (node.pairs.length + 1) * offsetSize + pairSizeWithKeySize maxKeySize ≥
    node.frontmostOffset

/-- `change_unsafe`. -/
def changeUnsafe (node : InternalNode) : Bool :=
  headerSize + node.pairs.length * offsetSize + maxKeySize ≥ node.frontmostOffset

/-- `is_underfull`. -/
def isUnderfull (blockSize : Nat) (node : InternalNode) : Bool :=
  (headerSize + 1) / 2 + node.pairs.length * offsetSize + (blockSize - node.frontmostOffset) +
    internalEpsilon * 2 < blockSize / 2

/-- The key in `parent` of the pair that leads to `node`, found by the first key of `node`. -/
def keyFromParent (parent node : InternalNode) : StoreKey :=
  (parent.getPairByIndex (parent.getOffsetIndex (node.getPairByIndex 0).key)).key

/-- `is_mergable`: the two nodes and the key from the parent fit in one block, with room for
one more pair of the largest key. -/
def isMergable (blockSize : Nat) (node sibling parent : InternalNode) : Bool :=
  let keyFromParent :=
    if nodecmp node sibling < 0 then keyFromParent parent node else keyFromParent parent sibling
  headerSize + (node.pairs.length + sibling.pairs.length + 1) * offsetSize +
    (blockSize - node.frontmostOffset) + (blockSize - sibling.frontmostOffset) +
    keyFromParent.contents.length + pairSizeWithKeySize maxKeySize + internalEpsilon < blockSize

/-- `is_doubleton`. -/
def isDoubleton (node : InternalNode) : Bool := node.pairs.length = 2

/-! ## `impl` -/

/-- `impl::insert_pair`: the pair is written in front of the heap. -/
def insertPair (node : InternalNode) (pair : InternalPair) : InternalNode :=
  { node with frontmostOffset := node.frontmostOffset - pairSize pair }

/-- `impl::delete_pair`: the heap in front of the pair moves over it. -/
def deletePair (node : InternalNode) (pair : InternalPair) : InternalNode :=
  { node with frontmostOffset := node.frontmostOffset + pairSize pair }

/-- `impl::insert_offset`. -/
def insertOffset (node : InternalNode) (pair : InternalPair) (index : Nat) : InternalNode :=
  { node with pairs := node.pairs.insertIdx index pair }

/-- `impl::delete_offset`. -/
def deleteOffset (node : InternalNode) (index : Nat) : InternalNode :=
  { node with pairs := node.pairs.eraseIdx index }

/-- `impl::make_last_pair_special`: the last pair is written again with the empty key, and
the old one deleted. -/
def makeLastPairSpecial (node : InternalNode) : InternalNode :=
  let index := node.pairs.length - 1
  let old := node.getPairByIndex index
  let special : InternalPair := ⟨old.lnode, StoreKey.min⟩
  deletePair { node.insertPair special with pairs := node.pairs.set index special } old

/-! ## The operations -/

/-- `insert`: nothing on a full node; an empty node first gets the last pair, to `rnode`; the
pair of `key` and `lnode` goes before the first pair whose key is not below `key`, and that
pair then leads to `rnode`. -/
def insert (node : InternalNode) (key : StoreKey) (lnode rnode : BlockId) : InternalNode × Bool :=
  if node.isFull then (node, false)
  else
    let special : InternalPair := ⟨rnode, StoreKey.min⟩
    let node := if node.pairs.length = 0 then (node.insertPair special).insertOffset special 0 else node
    let index := node.getOffsetIndex key
    let node := (node.insertPair ⟨lnode, key⟩).insertOffset ⟨lnode, key⟩ index
    ({ node with pairs := node.pairs.modify (index + 1) fun pair => { pair with lnode := rnode } },
      true)

/-- `remove`: the pair of `key` goes; if it was the last, the pair before it becomes the last. -/
def remove (node : InternalNode) (key : StoreKey) : InternalNode :=
  let index := node.getOffsetIndex key
  let node := (node.deletePair (node.getPairByIndex index)).deleteOffset index
  if index = node.pairs.length then node.makeLastPairSpecial else node

/-- The loop of `split` that finds the median index: pairs are counted while the bytes of
those counted are below half of the heap. -/
def medianIndex : List InternalPair → Nat → Nat → Nat
  | pair :: rest, firstPairs, half =>
    if firstPairs < half then medianIndex rest (firstPairs + pairSize pair) half + 1 else 0
  | [], _, _ => 0

/-- The `init` that copies pairs of another node into a fresh one and sorts all but the last
by key. -/
def initFrom (blockSize : Nat) (pairs : List InternalPair) : InternalNode :=
  let node := pairs.foldl insertPair (init blockSize)
  { node with pairs := (pairs.take (pairs.length - 1)).mergeSort (fun a b => a.key ≤ b.key) ++
      pairs.drop (pairs.length - 1) }

/-- `split`: the pairs from the median index on go to a new node `rnode`, and the pair before
it becomes the last of `node`; its key is the median. -/
def split (blockSize : Nat) (node : InternalNode) : InternalNode × InternalNode × StoreKey :=
  let totalPairs := blockSize - node.frontmostOffset
  let median := medianIndex node.pairs 0 (totalPairs / 2)
  let medianKey := (node.getPairByIndex (median - 1)).key
  let rnode := initFrom blockSize (node.pairs.drop median)
  let left := (node.pairs.drop median).foldl deletePair node
  ({ left with pairs := node.pairs.take median }.makeLastPairSpecial, rnode, medianKey)

/-- `merge`: the pairs of `node` go in front of those of `rnode`, the last of them with the key
from the parent.  The `guarantee` that they fit is `none`. -/
def merge (blockSize : Nat) (node rnode parent : InternalNode) : Option InternalNode :=
  let keyFromParent := keyFromParent parent node
  if headerSize + (node.pairs.length + rnode.pairs.length) * offsetSize +
      (blockSize - node.frontmostOffset) + (blockSize - rnode.frontmostOffset) +
      keyFromParent.contents.length < blockSize then
    let n := node.pairs.length
    let copied := (node.pairs.take (n - 1)).foldl insertPair rnode
    let last : InternalPair := ⟨(node.getPairByIndex (n - 1)).lnode, keyFromParent⟩
    some { copied.insertPair last with pairs := node.pairs.take (n - 1) ++ [last] ++ rnode.pairs }
  else none

/-- What `level` leaves: whether it levelled, the two nodes, `replacement_key` and
`moved_children_out`. -/
structure LevelResult where
  leveled : Bool
  node : InternalNode
  sibling : InternalNode
  replacementKey : StoreKey
  movedChildren : List BlockId

/-- The loop of `level` when `node` is left of `sibling`: the first pair of the sibling moves to
the end of `node` until `node` with it would be at least as large as the sibling without it.
The sibling is given by its pairs and `frontmost_offset`. -/
def moveFromFront (blockSize : Nat) (node : InternalNode) (moved : List BlockId) :
    List InternalPair → Nat → InternalNode × InternalNode × List BlockId
  | pair :: rest, siblingFront =>
    let sizeChange := offsetSize + pairSize pair
    if node.pairs.length * offsetSize + (blockSize - node.frontmostOffset) + sizeChange ≥
        (pair :: rest).length * offsetSize + (blockSize - siblingFront) - sizeChange then
      (node, ⟨pair :: rest, siblingFront⟩, moved)
    else
      moveFromFront blockSize { node.insertPair pair with pairs := node.pairs ++ [pair] }
        (moved ++ [pair.lnode]) rest (siblingFront + pairSize pair)
  | [], siblingFront => (node, ⟨[], siblingFront⟩, moved)

/-- The loop of `level` when `node` is right of `sibling`: the last pair of the sibling moves to
the front of `node`, under the same test.  The sibling's pairs are given from the back. -/
def moveFromBack (blockSize : Nat) (node : InternalNode) (moved : List BlockId) :
    List InternalPair → Nat → InternalNode × InternalNode × List BlockId
  | pair :: earlier, siblingFront =>
    let sizeChange := offsetSize + pairSize pair
    if node.pairs.length * offsetSize + (blockSize - node.frontmostOffset) + sizeChange ≥
        (pair :: earlier).length * offsetSize + (blockSize - siblingFront) - sizeChange then
      (node, ⟨(pair :: earlier).reverse, siblingFront⟩, moved)
    else
      moveFromBack blockSize ((node.insertPair pair).insertOffset pair 0) (moved ++ [pair.lnode])
        earlier (siblingFront + pairSize pair)
  | [], siblingFront => (node, ⟨[], siblingFront⟩, moved)

/-- The end of `level`: `guarantee(!change_unsafe(node))`. -/
def levelDone (node sibling : InternalNode) (replacementKey : StoreKey) (moved : List BlockId) :
    Option LevelResult :=
  if node.changeUnsafe then none else some ⟨true, node, sibling, replacementKey, moved⟩

/-- `level`.  When `nodecmp` puts `node` first, the key from the parent goes on its last pair,
pairs move from the front of the sibling, and the last pair of `node` then leads to the child
of the sibling's first pair, whose key is the replacement key.  Otherwise the key from the
parent goes on a new first pair of `node` leading to the sibling's last child, pairs move from
the back of the sibling, and the key of its last pair is the replacement key. -/
def level (blockSize : Nat) (node sibling : InternalNode) (replacementKey : StoreKey)
    (parent : InternalNode) : Option LevelResult :=
  if nodecmp node sibling < 0 then
    let keyFromParent := keyFromParent parent node
    if headerSize + (node.pairs.length + 1) * offsetSize +
        pairSizeWithKeySize keyFromParent.contents.length ≥ node.frontmostOffset then
      some ⟨false, node, sibling, replacementKey, []⟩
    else
      let n := node.pairs.length
      let special := node.getPairByIndex (n - 1)
      let keyed : InternalPair := ⟨special.lnode, keyFromParent⟩
      let start := { node.insertPair keyed with pairs := node.pairs.take (n - 1) ++ [keyed] }
      let moving := moveFromFront blockSize start [] sibling.pairs sibling.frontmostOffset
      let pairForParent := moving.2.1.getPairByIndex 0
      levelDone { moving.1 with pairs := moving.1.pairs ++ [{ special with lnode := pairForParent.lnode }] }
        ((moving.2.1.deletePair pairForParent).deleteOffset 0) pairForParent.key
        (moving.2.2 ++ [pairForParent.lnode])
  else
    let keyFromParent := keyFromParent parent sibling
    if headerSize + (node.pairs.length + 1) * offsetSize +
        pairSizeWithKeySize keyFromParent.contents.length ≥ node.frontmostOffset then
      some ⟨false, node, sibling, replacementKey, []⟩
    else
      let m := sibling.pairs.length
      let firstChild := (sibling.getPairByIndex (m - 1)).lnode
      let start := (node.insertPair ⟨firstChild, keyFromParent⟩).insertOffset ⟨firstChild, keyFromParent⟩ 0
      let rest := (sibling.deletePair (sibling.getPairByIndex (m - 1))).deleteOffset (m - 1)
      let moving := moveFromBack blockSize start [firstChild] rest.pairs.reverse rest.frontmostOffset
      levelDone moving.1 moving.2.1.makeLastPairSpecial
        (moving.2.1.getPairByIndex (moving.2.1.pairs.length - 1)).key moving.2.2

/-! ## What `validate` checks -/

/-- The pairs with a separator key: all but the last. -/
def keyed (node : InternalNode) : List InternalPair := node.pairs.dropLast

/-- The child of the last pair. -/
def lastChild (node : InternalNode) : BlockId := (node.pairs.getLastD default).lnode

/-- `validate`, with the heap holding exactly the pairs: the offsets end before the heap,
the heap lies in the block, the keys of all pairs but the last increase, and the last pair
has the empty key. -/
structure Valid (blockSize : Nat) (node : InternalNode) : Prop where
  nonempty : node.pairs ≠ []
  fits : headerSize + node.pairs.length * offsetSize ≤ node.frontmostOffset
  frontLe : node.frontmostOffset ≤ blockSize
  heap : blockSize - node.frontmostOffset = (node.pairs.map pairSize).sum
  sorted : node.keyed.Pairwise fun a b => a.key < b.key
  special : (node.pairs.getLastD default).key = StoreKey.min

/-! ## Routing -/

/-- Where separator pairs and a last child send a key: to the child of the first pair whose key
is at least the key, and past them all to the last child. -/
def route : List InternalPair → BlockId → StoreKey → BlockId
  | [], last, _ => last
  | pair :: rest, last, key => if key ≤ pair.key then pair.lnode else route rest last key

/-- The slot of a key among separator pairs: the index of the first pair whose key is at least
the key, or their number. -/
def slot (keyed : List InternalPair) (key : StoreKey) : Nat :=
  keyed.findIdx fun pair => key ≤ pair.key

section Routing

variable {key : StoreKey} {pair : InternalPair} {rest : List InternalPair} {last : BlockId}

@[simp] theorem route_nil : route [] last key = last := rfl

@[simp] theorem slot_nil : slot [] key = 0 := rfl

theorem route_cons_of_le (covers : key ≤ pair.key) : route (pair :: rest) last key = pair.lnode :=
  if_pos covers

theorem route_cons_of_lt (below : pair.key < key) :
    route (pair :: rest) last key = route rest last key :=
  if_neg (not_le.mpr below)

/-- Routing through a list of pairs is routing through the first part, with what the second
part routes to as its last child. -/
theorem route_append (A B : List InternalPair) (last : BlockId) (key : StoreKey) :
    route (A ++ B) last key = route A (route B last key) key := by
  induction A with
  | nil => rfl
  | cons pair rest ih =>
    by_cases covers : key ≤ pair.key
    · rw [List.cons_append, route_cons_of_le covers, route_cons_of_le covers]
    · rw [List.cons_append, route_cons_of_lt (lt_of_not_ge covers),
        route_cons_of_lt (lt_of_not_ge covers), ih]

/-- Past pairs whose keys are all below the key, routing reaches the last child. -/
theorem route_of_lt {A : List InternalPair} (below : ∀ pair ∈ A, pair.key < key) :
    route A last key = last := by
  induction A with
  | nil => rfl
  | cons pair rest ih =>
    rw [route_cons_of_lt (below pair List.mem_cons_self)]
    exact ih fun other member => below other (List.mem_cons_of_mem _ member)

/-- A pair that covers the key decides the route, whatever the last child. -/
theorem route_of_covered {A : List InternalPair} (covered : ∃ pair ∈ A, key ≤ pair.key)
    (last last' : BlockId) : route A last key = route A last' key := by
  induction A with
  | nil => simp at covered
  | cons pair rest ih =>
    by_cases covers : key ≤ pair.key
    · rw [route_cons_of_le covers, route_cons_of_le covers]
    · have later : ∃ other ∈ rest, key ≤ other.key := by
        obtain ⟨other, member, above⟩ := covered
        rcases List.mem_cons.mp member with rfl | later
        · exact absurd above covers
        · exact ⟨other, later, above⟩
      rw [route_cons_of_lt (lt_of_not_ge covers), route_cons_of_lt (lt_of_not_ge covers), ih later]

theorem slot_cons_of_le (covers : key ≤ pair.key) : slot (pair :: rest) key = 0 := by
  simp [slot, List.findIdx_cons, covers]

theorem slot_cons_of_lt (below : pair.key < key) : slot (pair :: rest) key = slot rest key + 1 := by
  simp [slot, List.findIdx_cons, not_le.mpr below]

theorem slot_append_of_lt {A : List InternalPair} (below : ∀ pair ∈ A, pair.key < key)
    (B : List InternalPair) : slot (A ++ B) key = A.length + slot B key := by
  induction A with
  | nil => simp
  | cons pair rest ih =>
    rw [List.cons_append, slot_cons_of_lt (below pair List.mem_cons_self),
      ih fun other member => below other (List.mem_cons_of_mem _ member), List.length_cons]
    omega

theorem slot_append_of_covered {A : List InternalPair} (covered : ∃ pair ∈ A, key ≤ pair.key)
    (B : List InternalPair) : slot (A ++ B) key < A.length := by
  induction A with
  | nil => simp at covered
  | cons pair rest ih =>
    by_cases covers : key ≤ pair.key
    · rw [List.cons_append, slot_cons_of_le covers]
      exact Nat.succ_pos _
    · have later : ∃ other ∈ rest, key ≤ other.key := by
        obtain ⟨other, member, above⟩ := covered
        rcases List.mem_cons.mp member with rfl | later
        · exact absurd above covers
        · exact ⟨other, later, above⟩
      rw [List.cons_append, slot_cons_of_lt (lt_of_not_ge covers), List.length_cons]
      exact Nat.succ_lt_succ (ih later)

/-- The slot of a key cuts the separator pairs into those below the key and those from the
first one covering it. -/
theorem exists_split_at_slot (keyed : List InternalPair) (key : StoreKey) :
    ∃ A B, keyed = A ++ B ∧ slot keyed key = A.length ∧ (∀ pair ∈ A, pair.key < key) ∧
      ∀ pair ∈ B.head?, key ≤ pair.key := by
  induction keyed with
  | nil => exact ⟨[], [], rfl, rfl, by simp, by simp⟩
  | cons pair rest ih =>
    by_cases covers : key ≤ pair.key
    · exact ⟨[], pair :: rest, rfl, slot_cons_of_le covers, by simp, by simpa using covers⟩
    · obtain ⟨A, B, split, atSlot, below, covering⟩ := ih
      refine ⟨pair :: A, B, by rw [split, List.cons_append], ?_, ?_, covering⟩
      · rw [slot_cons_of_lt (lt_of_not_ge covers), atSlot, List.length_cons]
      · intro other member
        rcases List.mem_cons.mp member with rfl | earlier
        · exact lt_of_not_ge covers
        · exact below other earlier

/-- The pair a slot names, among the separator pairs and the last pair, leads where the key is
routed. -/
theorem getD_slot (keyed : List InternalPair) (lastPair : InternalPair) (key : StoreKey) :
    ((keyed ++ [lastPair]).getD (slot keyed key) default).lnode = route keyed lastPair.lnode key := by
  induction keyed with
  | nil => rfl
  | cons pair rest ih =>
    by_cases covers : key ≤ pair.key
    · rw [slot_cons_of_le covers, route_cons_of_le covers]
      rfl
    · rw [slot_cons_of_lt (lt_of_not_ge covers), route_cons_of_lt (lt_of_not_ge covers), ← ih]
      rfl

end Routing

theorem keyBelow_eq (key : StoreKey) (pair : InternalPair) :
    keyBelow key pair = decide (pair.key < key) := by
  rw [keyBelow, decide_eq_decide]
  exact StoreKey.lt_iff_sizedStrcmp.symm

theorem pairs_eq_keyed_append {node : InternalNode} (nonempty : node.pairs ≠ []) :
    node.pairs = node.keyed ++ [node.pairs.getLastD default] := by
  rw [keyed, List.getLastD_eq_getLast?, List.getLast?_eq_some_getLast nonempty, Option.getD_some]
  exact (List.dropLast_concat_getLast nonempty).symm

/-- `get_offset_index` on pairs given as separator pairs and a last pair is the slot of the key
among the separator pairs. -/
theorem getOffsetIndex_of_pairs_eq {node : InternalNode} {keyed : List InternalPair}
    {lastPair : InternalPair} (shape : node.pairs = keyed ++ [lastPair]) (key : StoreKey) :
    node.getOffsetIndex key = slot keyed key := by
  have allButLast : node.pairs.take (node.pairs.length - 1) = keyed := by
    rw [shape]
    exact List.take_left' (by simp)
  rw [getOffsetIndex, allButLast, slot]
  congr
  funext pair
  rw [keyBelow_eq, ← decide_not]
  simp only [not_lt]

/-- `lookup` on pairs given as separator pairs and a last pair routes through them. -/
theorem lookup_of_pairs_eq {node : InternalNode} {keyed : List InternalPair}
    {lastPair : InternalPair} (shape : node.pairs = keyed ++ [lastPair]) (key : StoreKey) :
    node.lookup key = route keyed lastPair.lnode key := by
  rw [lookup, getPairByIndex, getOffsetIndex_of_pairs_eq shape, shape]
  exact getD_slot _ _ key

theorem getOffsetIndex_eq {node : InternalNode} (nonempty : node.pairs ≠ []) (key : StoreKey) :
    node.getOffsetIndex key = slot node.keyed key :=
  getOffsetIndex_of_pairs_eq (pairs_eq_keyed_append nonempty) key

/-- `lookup` routes through the separator pairs to their children, and past them to the last
child. -/
theorem lookup_eq_route {node : InternalNode} (nonempty : node.pairs ≠ []) (key : StoreKey) :
    node.lookup key = route node.keyed node.lastChild key :=
  lookup_of_pairs_eq (pairs_eq_keyed_append nonempty) key

/-- A node whose pairs are separator pairs in key order and a last pair with the empty key, and
whose heap holds exactly them behind the offsets, is valid. -/
theorem valid_of_pairs_eq {blockSize : Nat} {node : InternalNode} {keyed : List InternalPair}
    {lastPair : InternalPair} (shape : node.pairs = keyed ++ [lastPair])
    (special : lastPair.key = StoreKey.min) (sorted : keyed.Pairwise fun a b => a.key < b.key)
    (fits : headerSize + (keyed.length + 1) * offsetSize ≤ node.frontmostOffset)
    (heap : node.frontmostOffset + (keyed.map pairSize).sum + pairSize lastPair = blockSize) :
    Valid blockSize node where
  nonempty := by simp [shape]
  fits := by simpa [shape] using fits
  frontLe := by omega
  heap := by
    rw [shape, List.map_append, List.sum_append]
    simp only [List.map_cons, List.map_nil, List.sum_cons, List.sum_nil, Nat.add_zero]
    omega
  sorted := by rwa [InternalNode.keyed, shape, List.dropLast_concat]
  special := by rwa [shape, List.getLastD_concat]

/-- The heap of a valid node and the space in front of it fill the block. -/
theorem Valid.front_add_heap {blockSize : Nat} {node : InternalNode} (valid : Valid blockSize node) :
    node.frontmostOffset + (node.pairs.map pairSize).sum = blockSize := by
  have := valid.heap
  have := valid.frontLe
  omega

theorem Valid.length_eq {blockSize : Nat} {node : InternalNode} (valid : Valid blockSize node) :
    node.pairs.length = node.keyed.length + 1 := by
  rw [keyed, List.length_dropLast]
  have := List.length_pos_iff.mpr valid.nonempty
  omega

/-- The heap of a valid node is its separator pairs and the last pair of nine bytes. -/
theorem Valid.heap_eq {blockSize : Nat} {node : InternalNode} (valid : Valid blockSize node) :
    node.frontmostOffset + (node.keyed.map pairSize).sum + 9 = blockSize := by
  have filled := valid.front_add_heap
  have lastSize : pairSize (node.pairs.getLastD default) = 9 := by
    rw [pairSize, valid.special]
    rfl
  rw [pairs_eq_keyed_append valid.nonempty, List.map_append, List.sum_append] at filled
  simp only [List.map_cons, List.map_nil, List.sum_cons, List.sum_nil, lastSize] at filled
  omega

end InternalNode

end Btree
end RethinkDB
