import Mathlib
import RethinkDB.Foundations.IndexedHeap

/-!
# `intrusive_priority_queue_t`

`containers/intrusive_priority_queue.hpp` keeps a binary heap of node pointers in a vector, and
every node stores its own position in the vector (`index`, inherited from
`intrusive_priority_queue_node_t`), so that a node can be removed or re-sorted without a
search.  The priority is the free function `left_is_higher_priority`.  Every change to the
vector goes through `swap_nodes`, which rewrites both back-indices before it swaps the slots, or
through the writes of `push`, `remove`, `pop` and `swap_in_place`, which set the index of the one
node they move.

The model keeps the vector as a list and the index fields as one function of the nodes, whose
value at a node outside the queue is whatever that node's field last held.  The loops carry fuel,
the length of the vector: the C++ loops end because a node's position moves strictly towards
the root or the leaves, which holds only while the back-indices are right, and the fuel is
shown to be enough along every run.

A run is a sequence of calls by a client that keeps the contract of the `rassert`s: push a node
not in a queue, remove or update a node in this one, swap in a node of equal priority for one
in the queue, and change priorities only of the node it then updates.  Along every run the
vector is a heap with respect to the current priorities, the back-indices are right, the
elements are those the calls put in and took out, and `peek` and `pop` give a node of highest
priority (`intrusive_queue_is_indexed_heap`).  The heap itself is the library
`IndexedHeap`; this module connects each bubbling loop to its invariants.
-/

namespace RethinkDB
namespace Containers

open IndexedHeap

/-- `intrusive_priority_queue_t`: the vector `nodes`, and each node's `index` field. -/
structure IntrusivePriorityQueue (ν : Type) where
  nodes : List ν
  index : ν → Nat

namespace IntrusivePriorityQueue

variable {ν : Type}

/-- `parent_index`, which asserts `index ≠ 0`. -/
def parentIndex (index : Nat) : Nat := (index + index % 2 - 2) / 2

/-- `left_child_index`. -/
def leftChildIndex (index : Nat) : Nat := index * 2 + 1

/-- `right_child_index`. -/
def rightChildIndex (index : Nat) : Nat := index * 2 + 2

/-- `left_is_higher_priority` read as a relation on nodes. -/
def Higher (higher : ν → ν → Bool) (a b : ν) : Prop := higher a b = true

instance (higher : ν → ν → Bool) : DecidableRel (Higher higher) :=
  fun a b => inferInstanceAs (Decidable (higher a b = true))

@[simp] theorem decide_higher (higher : ν → ν → Bool) (a b : ν) :
    decide (Higher higher a b) = higher a b := by
  cases compared : higher a b <;> simp [Higher, compared]

theorem not_higher_iff {higher : ν → ν → Bool} {a b : ν} :
    ¬Higher higher a b ↔ higher a b = false := by
  unfold Higher
  exact Bool.eq_false_iff.symm

/-- Every node in the vector stores its position. -/
def Indexed (q : IntrusivePriorityQueue ν) : Prop :=
  ∀ (i : Nat) (x : ν), q.nodes[i]? = some x → q.index x = i

/-- The `winner` of a round of `bubble_towards_leaves`: the node's position, replaced by the left
child's if that is in the vector and of higher priority, and then by the right child's if that
is in the vector and of higher priority than the winner so far. -/
def winner (higher : ν → ν → Bool) (q : IntrusivePriorityQueue ν) (index : Nat) : Nat :=
  pick (Higher higher) q.nodes (pick (Higher higher) q.nodes index (leftChildIndex index))
    (rightChildIndex index)

section Calls

variable [DecidableEq ν]

/-- `swap_nodes`: the node at `i` is told its position is `j`, the node at `j` that its
position is `i`, and the two slots are swapped. -/
def swapNodes (q : IntrusivePriorityQueue ν) (i j : Nat) : IntrusivePriorityQueue ν :=
  match q.nodes[i]?, q.nodes[j]? with
  | some a, some b =>
    { nodes := (q.nodes.set i b).set j a
      index := Function.update (Function.update q.index a j) b i }
  | _, _ => q

/-- The condition of the loop of `bubble_towards_root`:
`node_index(node) != 0 && left_is_higher_priority(node, nodes[parent_index(node_index(node))])`. -/
def aboveParent (higher : ν → ν → Bool) (q : IntrusivePriorityQueue ν) (node : ν) : Bool :=
  q.index node != 0 &&
    match q.nodes[parentIndex (q.index node)]? with
    | some parent => higher node parent
    | none => false

/-- `bubble_towards_root`. -/
def bubbleTowardsRoot (higher : ν → ν → Bool) :
    Nat → IntrusivePriorityQueue ν → ν → IntrusivePriorityQueue ν
  | 0, q, _ => q
  | fuel + 1, q, node =>
    if q.aboveParent higher node then
      bubbleTowardsRoot higher fuel (q.swapNodes (q.index node) (parentIndex (q.index node))) node
    else q

/-- `bubble_towards_leaves`. -/
def bubbleTowardsLeaves (higher : ν → ν → Bool) :
    Nat → IntrusivePriorityQueue ν → ν → IntrusivePriorityQueue ν
  | 0, q, _ => q
  | fuel + 1, q, node =>
    if q.winner higher (q.index node) = q.index node then q
    else
      bubbleTowardsLeaves higher fuel (q.swapNodes (q.winner higher (q.index node)) (q.index node))
        node

/-- `push`. -/
def push (higher : ν → ν → Bool) (q : IntrusivePriorityQueue ν) (x : ν) :
    IntrusivePriorityQueue ν :=
  let pushed : IntrusivePriorityQueue ν :=
    ⟨q.nodes ++ [x], Function.update q.index x ((q.nodes ++ [x]).length - 1)⟩
  bubbleTowardsRoot higher pushed.nodes.length pushed x

/-- What `remove` and `pop` do to take the node at `k` out:
`nodes[k] = nodes.back(); node_index(replacement) = k; nodes.pop_back();`. -/
def fillFromBack (q : IntrusivePriorityQueue ν) (k : Nat) (replacement : ν) :
    IntrusivePriorityQueue ν :=
  ⟨(q.nodes.set k replacement).dropLast, Function.update q.index replacement k⟩

/-- `remove`. -/
def remove (higher : ν → ν → Bool) (q : IntrusivePriorityQueue ν) (x : ν) :
    IntrusivePriorityQueue ν :=
  if q.index x = q.nodes.length - 1 then { q with nodes := q.nodes.dropLast }
  else
    match q.nodes.getLast? with
    | some replacement =>
      let filled := q.fillFromBack (q.index x) replacement
      bubbleTowardsLeaves higher filled.nodes.length
        (bubbleTowardsRoot higher filled.nodes.length filled replacement) replacement
    | none => q

/-- `peek`: `NULL` is `none`. -/
def peek (q : IntrusivePriorityQueue ν) : Option ν := q.nodes.head?

/-- `pop`: the node it returns, and the queue after. -/
def pop (higher : ν → ν → Bool) (q : IntrusivePriorityQueue ν) :
    Option ν × IntrusivePriorityQueue ν :=
  match q.nodes.head?, q.nodes.getLast? with
  | some x, some replacement =>
    if q.nodes.length = 1 then (some x, { q with nodes := q.nodes.dropLast })
    else
      let filled := q.fillFromBack 0 replacement
      (some x, bubbleTowardsLeaves higher filled.nodes.length filled replacement)
  | _, _ => (none, q)

/-- `update`, called after `node`'s priority changed. -/
def update (higher : ν → ν → Bool) (q : IntrusivePriorityQueue ν) (node : ν) :
    IntrusivePriorityQueue ν :=
  bubbleTowardsLeaves higher q.nodes.length (bubbleTowardsRoot higher q.nodes.length q node) node

/-- `swap_in_place`: `node_index(to_insert) = node_index(to_remove);
nodes[node_index(to_remove)] = to_insert;`. -/
def swapInPlace (q : IntrusivePriorityQueue ν) (toRemove toInsert : ν) :
    IntrusivePriorityQueue ν :=
  let index := Function.update q.index toInsert (q.index toRemove)
  { nodes := q.nodes.set (index toRemove) toInsert, index := index }

end Calls

/-! ## Positions -/

/-- `parent_index` is the parent of a heap position, by its own formula: an odd position
`2m + 1` and the even position `2m + 2` both have the parent `m`. -/
theorem parentIndex_eq_parent {index : Nat} (pos : 0 < index) :
    parentIndex index = parent index := by
  unfold parentIndex parent
  omega

example : parentIndex 5 = 2 ∧ parentIndex 6 = 2 ∧ parentIndex 1 = 0 := by decide

theorem winner_eq_best (higher : ν → ν → Bool) (q : IntrusivePriorityQueue ν) (index : Nat) :
    q.winner higher index = best (Higher higher) q.nodes index := by
  unfold winner best leftChildIndex rightChildIndex
  rw [Nat.mul_comm index 2]

/-! ## Back-indices -/

variable {q : IntrusivePriorityQueue ν} {i j : Nat} {node : ν}

/-- A node stored at two positions would store two indices, so the vector has no repeats. -/
theorem Indexed.nodup (idx : q.Indexed) : q.nodes.Nodup := by
  rw [List.nodup_iff_injective_get]
  intro a b same
  have atA := idx a _ (List.getElem?_eq_getElem a.isLt)
  have atB := idx b _ (List.getElem?_eq_getElem b.isLt)
  simp only [List.get_eq_getElem] at same
  rw [same] at atA
  exact Fin.ext (atA.symm.trans atB)

theorem Indexed.getElem?_index (idx : q.Indexed) (mem : node ∈ q.nodes) :
    q.nodes[q.index node]? = some node := by
  obtain ⟨k, lt, atK⟩ := List.getElem_of_mem mem
  have stored := idx k node (by rw [← atK]; exact List.getElem?_eq_getElem lt)
  rw [stored, ← atK]
  exact List.getElem?_eq_getElem lt

theorem Indexed.index_lt (idx : q.Indexed) (mem : node ∈ q.nodes) :
    q.index node < q.nodes.length :=
  (List.getElem?_eq_some_iff.mp (idx.getElem?_index mem)).1

theorem Indexed.getElem_index (idx : q.Indexed) (mem : node ∈ q.nodes)
    (lt : q.index node < q.nodes.length) : q.nodes[q.index node] = node := by
  have stored := idx.getElem?_index mem
  rw [List.getElem?_eq_getElem lt] at stored
  exact Option.some.inj stored

/-- Two nodes at different positions are different nodes. -/
theorem Indexed.ne_of_ne (idx : q.Indexed) {a b : ν} (atI : q.nodes[i]? = some a)
    (atJ : q.nodes[j]? = some b) (apart : i ≠ j) : a ≠ b := by
  intro same
  rw [same] at atI
  exact apart ((idx i b atI).symm.trans (idx j b atJ))

/-! ## `swap_nodes` -/

variable [DecidableEq ν]

theorem swapNodes_nodes : (q.swapNodes i j).nodes = swapAt q.nodes i j := by
  unfold swapNodes swapAt
  cases q.nodes[i]? <;> cases q.nodes[j]? <;> rfl

@[simp] theorem length_swapNodes : (q.swapNodes i j).nodes.length = q.nodes.length := by
  rw [swapNodes_nodes, length_swapAt]

theorem mem_swapNodes : node ∈ (q.swapNodes i j).nodes ↔ node ∈ q.nodes := by
  rw [swapNodes_nodes]
  exact perm_swapAt.mem_iff

theorem swapNodes_index (hi : i < q.nodes.length) (hj : j < q.nodes.length) :
    (q.swapNodes i j).index =
      Function.update (Function.update q.index q.nodes[i] j) q.nodes[j] i := by
  unfold swapNodes
  rw [List.getElem?_eq_getElem hi, List.getElem?_eq_getElem hj]

/-- `swap_nodes` keeps every back-index right: each of the two nodes it moves is told its new
position. -/
theorem Indexed.swapNodes (idx : q.Indexed) (hi : i < q.nodes.length)
    (hj : j < q.nodes.length) : (q.swapNodes i j).Indexed := by
  intro n x atN
  rw [swapNodes_nodes, getElem?_swapAt hi hj] at atN
  rw [swapNodes_index hi hj]
  have atI : q.nodes[i]? = some q.nodes[i] := List.getElem?_eq_getElem hi
  have atJ : q.nodes[j]? = some q.nodes[j] := List.getElem?_eq_getElem hj
  by_cases isI : n = i
  · subst isI
    rw [Equiv.swap_apply_left, atJ] at atN
    cases atN
    exact Function.update_self _ _ _
  · by_cases isJ : n = j
    · -- the node from `i`, which is not the node from `j`
      subst isJ
      rw [Equiv.swap_apply_right, atI] at atN
      cases atN
      rw [Function.update_of_ne (idx.ne_of_ne atI atJ (Ne.symm isI)), Function.update_self]
    · rw [Equiv.swap_apply_of_ne_of_ne isI isJ] at atN
      rw [Function.update_of_ne (idx.ne_of_ne atN atJ isJ),
        Function.update_of_ne (idx.ne_of_ne atN atI isI)]
      exact idx n x atN

/-- The node swapped out of `i` is told it is at `j`. -/
theorem Indexed.index_swapNodes_left (idx : q.Indexed) (hi : i < q.nodes.length)
    (hj : j < q.nodes.length) : (q.swapNodes i j).index q.nodes[i] = j := by
  rw [swapNodes_index hi hj]
  by_cases same : i = j
  · subst same
    exact Function.update_self _ _ _
  · rw [Function.update_of_ne (idx.ne_of_ne (List.getElem?_eq_getElem hi)
      (List.getElem?_eq_getElem hj) same), Function.update_self]

/-- The node swapped out of `j` is told it is at `i`. -/
theorem index_swapNodes_right (hi : i < q.nodes.length) (hj : j < q.nodes.length) :
    (q.swapNodes i j).index q.nodes[j] = i := by
  rw [swapNodes_index hi hj]
  exact Function.update_self _ _ _

theorem perm_swapNodes : (q.swapNodes i j).nodes.Perm q.nodes := by
  rw [swapNodes_nodes]
  exact perm_swapAt

/-! ## `bubble_towards_root` -/

section TowardsRoot

variable {higher : ν → ν → Bool}

omit [DecidableEq ν] in
/-- The loop condition of `bubble_towards_root`, on a queue with right back-indices, is the
heap's comparison of the node's position with its parent's. -/
theorem aboveParent_iff (idx : q.Indexed) (mem : node ∈ q.nodes) :
    q.aboveParent higher node = true ↔
      0 < q.index node ∧
        higherAt (Higher higher) q.nodes (q.index node) (parent (q.index node)) = true := by
  unfold aboveParent higherAt
  rw [idx.getElem?_index mem]
  rcases Nat.eq_zero_or_pos (q.index node) with zero | pos
  · simp [zero]
  · rw [parentIndex_eq_parent pos]
    cases q.nodes[parent (q.index node)]? <;> simp [Nat.pos_iff_ne_zero.mp pos, pos]

/-- One round of `bubble_towards_root`: the node moves to its parent's position, and the
back-indices stay right. -/
theorem Indexed.towardsRoot_swap (idx : q.Indexed) (mem : node ∈ q.nodes)
    (pos : 0 < q.index node) :
    (q.swapNodes (q.index node) (parentIndex (q.index node))).Indexed ∧
      node ∈ (q.swapNodes (q.index node) (parentIndex (q.index node))).nodes ∧
      (q.swapNodes (q.index node) (parentIndex (q.index node))).index node =
        parent (q.index node) ∧
      (q.swapNodes (q.index node) (parentIndex (q.index node))).nodes =
        swapAt q.nodes (q.index node) (parent (q.index node)) := by
  have lt := idx.index_lt mem
  rw [parentIndex_eq_parent pos]
  have plt : parent (q.index node) < q.nodes.length := Nat.lt_trans (parent_lt pos) lt
  refine ⟨idx.swapNodes lt plt, mem_swapNodes.mpr mem, ?_, swapNodes_nodes⟩
  have moved := idx.index_swapNodes_left lt plt
  rwa [idx.getElem_index mem lt] at moved

theorem bubbleTowardsRoot_sound (fuel : Nat) (idx : q.Indexed) (mem : node ∈ q.nodes) :
    (bubbleTowardsRoot higher fuel q node).Indexed ∧
      (bubbleTowardsRoot higher fuel q node).nodes.Perm q.nodes := by
  induction fuel generalizing q with
  | zero => exact ⟨idx, List.Perm.refl _⟩
  | succ fuel ih =>
    rw [bubbleTowardsRoot]
    split_ifs with above
    · obtain ⟨idx', mem', -, -⟩ :=
        idx.towardsRoot_swap mem ((aboveParent_iff idx mem).mp above).1
      obtain ⟨sound, perm⟩ := ih idx' mem'
      exact ⟨sound, perm.trans perm_swapNodes⟩
    · exact ⟨idx, List.Perm.refl _⟩

variable [IsStrictWeakOrder ν (Higher higher)]

/-- `bubble_towards_root` from the order of a bubble up ends in an ordered heap, given fuel for
every level above the node. -/
theorem bubbleTowardsRoot_ordered (fuel : Nat) (idx : q.Indexed) (mem : node ∈ q.nodes)
    (up : UpInv (Higher higher) q.nodes (q.index node)) (enough : q.index node ≤ fuel) :
    Ordered (Higher higher) (bubbleTowardsRoot higher fuel q node).nodes := by
  -- on the fuel, with the node's position below it; each round moves the node one level up
  induction fuel generalizing q with
  | zero => exact up.finishUp fun stop => Nat.lt_irrefl 0 (Nat.lt_of_lt_of_le stop.1 enough)
  | succ fuel ih =>
    rw [bubbleTowardsRoot]
    split_ifs with above
    · obtain ⟨pos, beats⟩ := (aboveParent_iff idx mem).mp above
      obtain ⟨idx', mem', moved, swapped⟩ := idx.towardsRoot_swap mem pos
      apply ih idx' mem'
      · rw [moved, swapped]
        exact up.swapUp pos (idx.index_lt mem) beats
      · rw [moved]
        have := parent_lt pos
        omega
    · exact up.finishUp fun stop => above ((aboveParent_iff idx mem).mpr stop)

/-- `bubble_towards_root` from a replaced position either moves the node, and then orders the
heap, or leaves it where a bubble towards the leaves can take over. -/
theorem bubbleTowardsRoot_downInv (fuel : Nat) (idx : q.Indexed) (mem : node ∈ q.nodes)
    (around : AroundInv (Higher higher) q.nodes (q.index node)) (enough : q.index node ≤ fuel) :
    DownInv (Higher higher) (bubbleTowardsRoot higher fuel q node).nodes
      ((bubbleTowardsRoot higher fuel q node).index node) := by
  cases fuel with
  | zero => exact around.downOfStop fun stop => Nat.lt_irrefl 0 (Nat.lt_of_lt_of_le stop.1 enough)
  | succ fuel =>
    rw [bubbleTowardsRoot]
    split_ifs with above
    · obtain ⟨pos, beats⟩ := (aboveParent_iff idx mem).mp above
      obtain ⟨idx', mem', moved, swapped⟩ := idx.towardsRoot_swap mem pos
      apply Ordered.downInv
      apply bubbleTowardsRoot_ordered fuel idx' mem'
      · rw [moved, swapped]
        exact around.swapUp pos (idx.index_lt mem) beats
      · rw [moved]
        have := parent_lt pos
        omega
    · exact around.downOfStop fun stop => above ((aboveParent_iff idx mem).mpr stop)

end TowardsRoot

/-! ## `bubble_towards_leaves` -/

section TowardsLeaves

variable {higher : ν → ν → Bool}

/-- One round of `bubble_towards_leaves` that does not stop: the node moves to the winner's
position, and the back-indices stay right. -/
theorem Indexed.towardsLeaves_swap (idx : q.Indexed) (mem : node ∈ q.nodes) :
    (q.swapNodes (best (Higher higher) q.nodes (q.index node)) (q.index node)).Indexed ∧
      node ∈ (q.swapNodes (best (Higher higher) q.nodes (q.index node)) (q.index node)).nodes ∧
      (q.swapNodes (best (Higher higher) q.nodes (q.index node)) (q.index node)).index node =
        best (Higher higher) q.nodes (q.index node) ∧
      (q.swapNodes (best (Higher higher) q.nodes (q.index node)) (q.index node)).nodes =
        swapAt q.nodes (best (Higher higher) q.nodes (q.index node)) (q.index node) := by
  have lt := idx.index_lt mem
  have wlt := @best_lt _ (Higher higher) _ _ _ lt
  refine ⟨idx.swapNodes wlt lt, mem_swapNodes.mpr mem, ?_, swapNodes_nodes⟩
  have moved := index_swapNodes_right wlt lt
  rwa [idx.getElem_index mem lt] at moved

theorem bubbleTowardsLeaves_sound (fuel : Nat) (idx : q.Indexed) (mem : node ∈ q.nodes) :
    (bubbleTowardsLeaves higher fuel q node).Indexed ∧
      (bubbleTowardsLeaves higher fuel q node).nodes.Perm q.nodes := by
  induction fuel generalizing q with
  | zero => exact ⟨idx, List.Perm.refl _⟩
  | succ fuel ih =>
    rw [bubbleTowardsLeaves]
    split_ifs with stay
    · exact ⟨idx, List.Perm.refl _⟩
    · rw [winner_eq_best]
      obtain ⟨idx', mem', -, -⟩ := @Indexed.towardsLeaves_swap _ _ _ _ higher idx mem
      obtain ⟨sound, perm⟩ := ih idx' mem'
      exact ⟨sound, perm.trans perm_swapNodes⟩

variable [IsStrictWeakOrder ν (Higher higher)]

/-- `bubble_towards_leaves` from the order of a bubble down ends in an ordered heap, given fuel
for every position below the node. -/
theorem bubbleTowardsLeaves_ordered (fuel : Nat) (idx : q.Indexed) (mem : node ∈ q.nodes)
    (down : DownInv (Higher higher) q.nodes (q.index node))
    (enough : q.nodes.length ≤ fuel + q.index node) :
    Ordered (Higher higher) (bubbleTowardsLeaves higher fuel q node).nodes := by
  -- on the fuel, with the positions from the node's to the end below it; each round moves the
  -- node to a child
  induction fuel generalizing q with
  | zero =>
    have := idx.index_lt mem
    omega
  | succ fuel ih =>
    rw [bubbleTowardsLeaves]
    split_ifs with stay
    · rw [winner_eq_best] at stay
      exact down.finishBest stay
    · rw [winner_eq_best] at stay ⊢
      obtain ⟨idx', mem', moved, swapped⟩ := @Indexed.towardsLeaves_swap _ _ _ _ higher idx mem
      apply ih idx' mem'
      · rw [moved, swapped]
        exact down.swapBest (idx.index_lt mem) stay
      · rw [moved, length_swapNodes]
        have := (best_eq_or_isChild.resolve_left stay).lt
        omega

end TowardsLeaves

/-! ## The calls -/

/-- What holds of the queue between calls: the back-indices are right and the vector is a heap
for the current priorities. -/
structure Inv (higher : ν → ν → Bool) (q : IntrusivePriorityQueue ν) : Prop where
  indexed : q.Indexed
  ordered : Ordered (Higher higher) q.nodes

section Calls

variable {higher : ν → ν → Bool} {x r : ν} {k : Nat}

/-- Bubbling a node towards the root and then towards the leaves, as `remove` and `update` do,
restores the heap around a position whose node was replaced or changed its priority. -/
theorem restore_inv [IsStrictWeakOrder ν (Higher higher)] (fuel : Nat) (idx : q.Indexed)
    (mem : node ∈ q.nodes) (around : AroundInv (Higher higher) q.nodes (q.index node))
    (enough : q.nodes.length ≤ fuel) :
    (bubbleTowardsLeaves higher fuel (bubbleTowardsRoot higher fuel q node) node).Inv higher ∧
      (bubbleTowardsLeaves higher fuel (bubbleTowardsRoot higher fuel q node) node).nodes.Perm
        q.nodes := by
  have lt := idx.index_lt mem
  obtain ⟨raisedIdx, raisedPerm⟩ := @bubbleTowardsRoot_sound _ q node _ higher fuel idx mem
  have raisedMem := raisedPerm.mem_iff.mpr mem
  have down := bubbleTowardsRoot_downInv fuel idx mem around (by omega)
  have roomBelow : (bubbleTowardsRoot higher fuel q node).nodes.length ≤
      fuel + (bubbleTowardsRoot higher fuel q node).index node := by
    rw [raisedPerm.length_eq]
    omega
  obtain ⟨loweredIdx, loweredPerm⟩ :=
    @bubbleTowardsLeaves_sound _ _ node _ higher fuel raisedIdx raisedMem
  exact ⟨⟨loweredIdx, bubbleTowardsLeaves_ordered fuel raisedIdx raisedMem down roomBelow⟩,
    loweredPerm.trans raisedPerm⟩

omit [DecidableEq ν] in
theorem lt_length_of_getElem?_append {i : Nat} {y : ν}
    (atI : (q.nodes ++ [x])[i]? = some y) : i < q.nodes.length + 1 := by
  have := (List.getElem?_eq_some_iff.mp atI).1
  simpa using this

/-- After `push_back` and the write of its index, the new node is told it is last. -/
theorem Indexed.pushBack (idx : q.Indexed) (fresh : x ∉ q.nodes) :
    (⟨q.nodes ++ [x], Function.update q.index x q.nodes.length⟩ :
      IntrusivePriorityQueue ν).Indexed := by
  intro i y atI
  dsimp only at atI ⊢
  have inRange := lt_length_of_getElem?_append atI
  rw [List.getElem?_append] at atI
  by_cases old : i < q.nodes.length
  · rw [if_pos old] at atI
    have other : y ≠ x := fun same => fresh (same ▸ List.mem_of_getElem? atI)
    rw [Function.update_of_ne other]
    exact idx i y atI
  · rw [if_neg old, show i - q.nodes.length = 0 by omega] at atI
    cases atI
    rw [Function.update_self]
    omega

/-- `push` keeps the queue a heap with right back-indices, and adds the node. -/
theorem Inv.push [IsStrictWeakOrder ν (Higher higher)] (inv : q.Inv higher)
    (fresh : x ∉ q.nodes) :
    (q.push higher x).Inv higher ∧ (q.push higher x).nodes.Perm (x :: q.nodes) := by
  unfold IntrusivePriorityQueue.push
  dsimp only
  have lastPosition : (q.nodes ++ [x]).length - 1 = q.nodes.length := by simp
  rw [lastPosition]
  have idx := inv.indexed.pushBack fresh
  have mem : x ∈ q.nodes ++ [x] := List.mem_append_right _ (List.mem_singleton_self x)
  have up : UpInv (Higher higher) (q.nodes ++ [x])
      (Function.update q.index x q.nodes.length x) := by
    rw [Function.update_self]
    exact inv.ordered.upInv_append x
  have enough : Function.update q.index x q.nodes.length x ≤ (q.nodes ++ [x]).length := by
    rw [Function.update_self, List.length_append]
    omega
  obtain ⟨sound, perm⟩ := @bubbleTowardsRoot_sound _ _ _ _ higher _ idx mem
  exact ⟨⟨sound, bubbleTowardsRoot_ordered _ idx mem up enough⟩,
    perm.trans (List.perm_append_singleton x q.nodes)⟩

/-! ### Taking the last node out -/

omit [DecidableEq ν] in
theorem exists_getLast?_of_mem (mem : x ∈ q.nodes) : ∃ r, q.nodes.getLast? = some r :=
  Option.isSome_iff_exists.mp (List.getLast?_isSome.mpr (List.ne_nil_of_mem mem))

omit [DecidableEq ν] in
theorem Inv.dropLast (inv : q.Inv higher) : ({ q with nodes := q.nodes.dropLast }).Inv higher where
  indexed i y atI := inv.indexed i y (getElem?_of_dropLast atI)
  ordered := inv.ordered.of_agree fun _ _ => getElem?_of_dropLast

/-! ### Filling a position from the back -/

omit [DecidableEq ν] in
theorem getElem?_last_of_getLast? (last : q.nodes.getLast? = some r) :
    q.nodes[q.nodes.length - 1]? = some r := by
  rw [← List.getLast?_eq_getElem?]
  exact last

theorem length_fillFromBack : (q.fillFromBack k r).nodes.length = q.nodes.length - 1 := by
  simp [fillFromBack]

theorem fillFromBack_index : (q.fillFromBack k r).index r = k :=
  Function.update_self _ _ _

theorem getElem?_fillFromBack (notLast : k + 1 < q.nodes.length) :
    (q.fillFromBack k r).nodes[k]? = some r := by
  unfold fillFromBack
  rw [List.getElem?_dropLast, if_pos (by simp; omega), List.getElem?_set_self (by omega)]

theorem mem_fillFromBack (notLast : k + 1 < q.nodes.length) : r ∈ (q.fillFromBack k r).nodes :=
  List.mem_of_getElem? (getElem?_fillFromBack notLast)

/-- Off position `k`, the vector after filling `k` from the back holds what it held. -/
theorem fillFromBack_agree {i : Nat} {y : ν} (ne : i ≠ k)
    (atI : (q.fillFromBack k r).nodes[i]? = some y) : q.nodes[i]? = some y := by
  unfold fillFromBack at atI
  rw [← List.getElem?_set_ne (Ne.symm ne)]
  exact getElem?_of_dropLast atI

theorem Indexed.fillFromBack (idx : q.Indexed) (notLast : k + 1 < q.nodes.length)
    (last : q.nodes.getLast? = some r) : (q.fillFromBack k r).Indexed := by
  intro i y atI
  by_cases isK : i = k
  · subst isK
    rw [getElem?_fillFromBack notLast] at atI
    cases atI
    exact fillFromBack_index
  · have old := fillFromBack_agree isK atI
    -- `y` is not the replacement, which was the last node, since `i` is not the last position
    have inRange : i < q.nodes.length - 1 := by
      have := (List.getElem?_eq_some_iff.mp atI).1
      rwa [length_fillFromBack] at this
    have other := idx.ne_of_ne old (getElem?_last_of_getLast? last) (Nat.ne_of_lt inRange)
    unfold IntrusivePriorityQueue.fillFromBack
    dsimp only
    rw [Function.update_of_ne other]
    exact idx i y old

theorem perm_fillFromBack (atK : q.nodes[k]? = some x) (notLast : k + 1 < q.nodes.length)
    (last : q.nodes.getLast? = some r) : (q.fillFromBack k r).nodes.Perm (q.nodes.erase x) :=
  perm_dropLast_set atK notLast last

/-- A heap with a position filled from the back is in order off that position. -/
theorem Inv.fillFromBack_around [IsStrictWeakOrder ν (Higher higher)] (inv : q.Inv higher)
    (notLast : k + 1 < q.nodes.length) :
    AroundInv (Higher higher) (q.fillFromBack k r).nodes ((q.fillFromBack k r).index r) := by
  rw [fillFromBack_index]
  exact inv.ordered.aroundInv_of_agree (by omega) fun _ _ => fillFromBack_agree

/-- Filling a position from the back, and bubbling the replacement both ways, takes the node
there out of a heap. -/
theorem Inv.fillFromBack_restore [IsStrictWeakOrder ν (Higher higher)] (inv : q.Inv higher)
    (atK : q.nodes[k]? = some x) (notLast : k + 1 < q.nodes.length)
    (last : q.nodes.getLast? = some r) (fuel : Nat)
    (enough : (q.fillFromBack k r).nodes.length ≤ fuel) :
    (bubbleTowardsLeaves higher fuel (bubbleTowardsRoot higher fuel (q.fillFromBack k r) r)
        r).Inv higher ∧
      (bubbleTowardsLeaves higher fuel (bubbleTowardsRoot higher fuel (q.fillFromBack k r) r)
        r).nodes.Perm (q.nodes.erase x) := by
  obtain ⟨restored, perm⟩ := restore_inv fuel (inv.indexed.fillFromBack notLast last)
    (mem_fillFromBack notLast) (inv.fillFromBack_around notLast) enough
  exact ⟨restored, perm.trans (perm_fillFromBack atK notLast last)⟩

/-- Filling the front from the back, and bubbling the replacement towards the leaves, takes
the front node out of a heap: the front has no parent to bubble to. -/
theorem Inv.fillFromBack_lower [IsStrictWeakOrder ν (Higher higher)] (inv : q.Inv higher)
    (atRoot : q.nodes[0]? = some x) (notLast : 0 + 1 < q.nodes.length)
    (last : q.nodes.getLast? = some r) :
    (bubbleTowardsLeaves higher (q.fillFromBack 0 r).nodes.length (q.fillFromBack 0 r)
        r).Inv higher ∧
      (bubbleTowardsLeaves higher (q.fillFromBack 0 r).nodes.length (q.fillFromBack 0 r)
        r).nodes.Perm (q.nodes.erase x) := by
  have around : AroundInv (Higher higher) (q.fillFromBack 0 r).nodes
      ((q.fillFromBack 0 r).index r) := inv.fillFromBack_around notLast
  have down := around.downOfStop fun stop => by
    rw [fillFromBack_index] at stop
    exact Nat.lt_irrefl 0 stop.1
  have idx := inv.indexed.fillFromBack notLast last
  have mem : r ∈ (q.fillFromBack 0 r).nodes := mem_fillFromBack notLast
  obtain ⟨sound, perm⟩ := @bubbleTowardsLeaves_sound _ _ r _ higher
    (q.fillFromBack 0 r).nodes.length idx mem
  exact ⟨⟨sound, bubbleTowardsLeaves_ordered _ idx mem down (by omega)⟩,
    perm.trans (perm_fillFromBack atRoot notLast last)⟩

/-- `remove` keeps the queue a heap with right back-indices, and takes the node out. -/
theorem Inv.remove [IsStrictWeakOrder ν (Higher higher)] (inv : q.Inv higher)
    (mem : x ∈ q.nodes) :
    (q.remove higher x).Inv higher ∧ (q.remove higher x).nodes.Perm (q.nodes.erase x) := by
  have atK := inv.indexed.getElem?_index mem
  have lt := inv.indexed.index_lt mem
  unfold IntrusivePriorityQueue.remove
  split_ifs with isLast
  · -- the node is the last one, and `pop_back` takes it out
    have last : q.nodes.getLast? = some x := by
      rw [List.getLast?_eq_getElem?, ← isLast]
      exact atK
    exact ⟨inv.dropLast, perm_dropLast last⟩
  · obtain ⟨r, last⟩ := exists_getLast?_of_mem mem
    rw [last]
    exact inv.fillFromBack_restore atK (by omega) last _ (Nat.le_refl _)

/-! ### `peek` and `pop` -/

omit [DecidableEq ν] in
theorem peek_eq_none_iff : q.peek = none ↔ q.nodes = [] := List.head?_eq_none_iff

omit [DecidableEq ν] in
/-- The node at the front of a heap has the highest priority. -/
theorem Inv.peek_highest [IsStrictWeakOrder ν (Higher higher)] (inv : q.Inv higher)
    (top : q.peek = some x) : x ∈ q.nodes ∧ ∀ y ∈ q.nodes, higher y x = false := by
  have atRoot : q.nodes[0]? = some x := by
    rw [← List.head?_eq_getElem?]
    exact top
  refine ⟨List.mem_of_getElem? atRoot, fun y mem => ?_⟩
  obtain ⟨i, atI⟩ := List.mem_iff_getElem?.mp mem
  exact not_higher_iff.mp (inv.ordered.not_higher_root atRoot i y atI)

theorem pop_fst : (q.pop higher).1 = q.peek := by
  unfold pop peek
  cases nodes : q.nodes with
  | nil => rfl
  | cons a rest =>
    rw [List.head?_cons, List.getLast?_cons]
    dsimp only
    split_ifs <;> rfl

theorem pop_of_peek_eq_none (empty : q.peek = none) : q.pop higher = (none, q) := by
  unfold pop
  rw [peek_eq_none_iff.mp empty]
  rfl

/-- `pop` keeps the queue a heap with right back-indices, and takes the front node out. -/
theorem Inv.pop [IsStrictWeakOrder ν (Higher higher)] (inv : q.Inv higher) :
    (q.pop higher).2.Inv higher ∧ ∀ x, q.peek = some x → (q.pop higher).2.nodes.Perm
      (q.nodes.erase x) := by
  cases front : q.peek with
  | none =>
    rw [pop_of_peek_eq_none front]
    exact ⟨inv, fun _ none => nomatch none⟩
  | some a =>
    have atRoot : q.nodes[0]? = some a := by
      rw [← List.head?_eq_getElem?]
      exact front
    obtain ⟨r, last⟩ := exists_getLast?_of_mem (List.mem_of_getElem? atRoot)
    unfold IntrusivePriorityQueue.pop
    rw [← List.head?_eq_getElem?] at atRoot
    rw [atRoot, last]
    dsimp only
    split_ifs with single
    · -- the one node is the front and the back
      have lastIsFront : r = a := by
        rw [List.getLast?_eq_getElem?, single] at last
        rw [List.head?_eq_getElem?] at atRoot
        exact Option.some.inj (last.symm.trans atRoot)
      rw [lastIsFront] at last
      exact ⟨inv.dropLast, fun x same => by cases same; exact perm_dropLast last⟩
    · rw [List.head?_eq_getElem?] at atRoot
      have notLast : 0 + 1 < q.nodes.length := by
        have := (List.getElem?_eq_some_iff.mp atRoot).1
        omega
      obtain ⟨lowered, perm⟩ := inv.fillFromBack_lower atRoot notLast last
      exact ⟨lowered, fun x same => by cases same; exact perm⟩

/-! ### `update` and `swap_in_place` -/

/-- `update` after a change of one node's priority, from `higher` to `higher'`, leaves a heap for
`higher'` with right back-indices and the same nodes. -/
theorem Inv.update {higher' : ν → ν → Bool} [IsStrictWeakOrder ν (Higher higher)]
    [IsStrictWeakOrder ν (Higher higher')] (inv : q.Inv higher) (mem : x ∈ q.nodes)
    (agree : ∀ a b, a ≠ x → b ≠ x → higher' a b = higher a b) :
    (q.update higher' x).Inv higher' ∧ (q.update higher' x).nodes.Perm q.nodes := by
  have atK := inv.indexed.getElem?_index mem
  have apart : ∀ (i : Nat) (y : ν), i ≠ q.index x → q.nodes[i]? = some y → y ≠ x :=
    fun i y ne atI => inv.indexed.ne_of_ne atI atK ne
  have around : AroundInv (Higher higher') q.nodes (q.index x) :=
    inv.ordered.aroundInv_of_reweigh atK apart fun a b offA offB => by
      unfold Higher
      rw [agree a b offA offB]
  exact restore_inv _ inv.indexed mem around (Nat.le_refl _)

/-- `swap_in_place` of a node for one of the same priority keeps the heap and the back-indices,
and trades the one node for the other. -/
theorem Inv.swapInPlace [IsStrictWeakOrder ν (Higher higher)] {a b : ν} (inv : q.Inv higher)
    (mem : a ∈ q.nodes) (fresh : b ∉ q.nodes) (ab : higher a b = false)
    (ba : higher b a = false) :
    (q.swapInPlace a b).Inv higher ∧ (q.swapInPlace a b).nodes.Perm (b :: q.nodes.erase a) := by
  have atK := inv.indexed.getElem?_index mem
  have lt := inv.indexed.index_lt mem
  have apart : a ≠ b := fun same => fresh (same ▸ mem)
  unfold IntrusivePriorityQueue.swapInPlace
  dsimp only
  rw [Function.update_of_ne apart]
  refine ⟨⟨?_, ?_⟩, perm_set atK⟩
  · intro i y atI
    dsimp only at atI ⊢
    rw [List.getElem?_set] at atI
    by_cases isK : q.index a = i
    · rw [if_pos isK, if_pos lt] at atI
      cases atI
      rw [Function.update_self]
      exact isK
    · rw [if_neg isK] at atI
      have other : y ≠ b := fun same => fresh (same ▸ List.mem_of_getElem? atI)
      rw [Function.update_of_ne other]
      exact inv.indexed i y atI
  · exact inv.ordered.set_of_incomp atK (not_higher_iff.mpr ab) (not_higher_iff.mpr ba)

end Calls

/-! ## Runs -/

/-- A call on the queue.  `update` carries the priorities after the change it is called for. -/
inductive Call (ν : Type) where
  | push (x : ν)
  | pop
  | remove (x : ν)
  | update (x : ν) (higher : ν → ν → Bool)
  | swapInPlace (toRemove toInsert : ν)

/-- The queue, and the priorities its nodes have now, which `left_is_higher_priority` reads. -/
structure Client (ν : Type) where
  queue : IntrusivePriorityQueue ν
  higher : ν → ν → Bool

namespace Client

/-- A call on the queue, and the node it returns: only `pop` returns one. -/
def call (c : Client ν) : Call ν → Client ν × Option ν
  | .push x => (⟨c.queue.push c.higher x, c.higher⟩, none)
  | .pop => (⟨(c.queue.pop c.higher).2, c.higher⟩, (c.queue.pop c.higher).1)
  | .remove x => (⟨c.queue.remove c.higher x, c.higher⟩, none)
  | .update x higher => (⟨c.queue.update higher x, higher⟩, none)
  | .swapInPlace toRemove toInsert => (⟨c.queue.swapInPlace toRemove toInsert, c.higher⟩, none)

/-- The contract of each call: the `rassert`s on which queue a node is in, the two of
`swap_in_place` on the priorities, and for `update` that only the updated node's priority
changed, to another strict weak order. -/
def Allowed (c : Client ν) : Call ν → Prop
  | .push x => x ∉ c.queue.nodes
  | .pop => True
  | .remove x => x ∈ c.queue.nodes
  | .update x higher => x ∈ c.queue.nodes ∧ IsStrictWeakOrder ν (Higher higher) ∧
      ∀ a b, a ≠ x → b ≠ x → higher a b = c.higher a b
  | .swapInPlace toRemove toInsert => toRemove ∈ c.queue.nodes ∧ toInsert ∉ c.queue.nodes ∧
      c.higher toRemove toInsert = false ∧ c.higher toInsert toRemove = false

end Client

/-- What a priority queue holds after a call, from what it held and the node `pop` returned. -/
def expected (m : Multiset ν) : Call ν → Option ν → Multiset ν
  | .push x, _ => x ::ₘ m
  | .pop, some x => m.erase x
  | .pop, none => m
  | .remove x, _ => m.erase x
  | .update _ _, _ => m
  | .swapInPlace toRemove toInsert, _ => toInsert ::ₘ m.erase toRemove

/-- The clients that allowed calls reach from an empty queue under a strict weak order, each
with the nodes a priority queue would hold there. -/
inductive Reachable : Client ν → Multiset ν → Prop
  | init (index : ν → Nat) (higher : ν → ν → Bool) (order : IsStrictWeakOrder ν (Higher higher)) :
      Reachable ⟨⟨[], index⟩, higher⟩ 0
  | step {c : Client ν} {m : Multiset ν} (call : Call ν) : Reachable c m → c.Allowed call →
      Reachable (c.call call).1 (expected m call (c.call call).2)

section Step

/-- One allowed call keeps the priorities a strict weak order and the queue a heap with right
back-indices, and changes its nodes as a priority queue's. -/
theorem Client.call_inv {c : Client ν} (order : IsStrictWeakOrder ν (Higher c.higher))
    (inv : c.queue.Inv c.higher) (call : Call ν) (allowed : c.Allowed call) :
    IsStrictWeakOrder ν (Higher (c.call call).1.higher) ∧
      (c.call call).1.queue.Inv (c.call call).1.higher ∧
      ((c.call call).1.queue.nodes : Multiset ν) =
        expected c.queue.nodes call (c.call call).2 := by
  cases call with
  | push x =>
    obtain ⟨pushed, perm⟩ := inv.push allowed
    exact ⟨order, pushed, by rw [expected, Multiset.cons_coe]; exact Multiset.coe_eq_coe.mpr perm⟩
  | pop =>
    obtain ⟨popped, perm⟩ := inv.pop
    refine ⟨order, popped, ?_⟩
    show (((c.queue.pop c.higher).2.nodes : List ν) : Multiset ν) =
      expected c.queue.nodes .pop (c.queue.pop c.higher).1
    rw [pop_fst]
    cases front : c.queue.peek with
    | none => rw [pop_of_peek_eq_none front, expected]
    | some x =>
      rw [expected, Multiset.coe_erase]
      exact Multiset.coe_eq_coe.mpr (perm x front)
  | remove x =>
    obtain ⟨removed, perm⟩ := inv.remove allowed
    exact ⟨order, removed, by rw [expected, Multiset.coe_erase]; exact Multiset.coe_eq_coe.mpr perm⟩
  | update x higher =>
    obtain ⟨mem, reordered, agree⟩ := allowed
    obtain ⟨updated, perm⟩ := inv.update mem agree
    exact ⟨reordered, updated, by rw [expected]; exact Multiset.coe_eq_coe.mpr perm⟩
  | swapInPlace toRemove toInsert =>
    obtain ⟨mem, fresh, notAbove, notBelow⟩ := allowed
    obtain ⟨swapped, perm⟩ := inv.swapInPlace mem fresh notAbove notBelow
    refine ⟨order, swapped, ?_⟩
    rw [expected, Multiset.coe_erase, Multiset.cons_coe]
    exact Multiset.coe_eq_coe.mpr perm

/-- Along every run the priorities are a strict weak order, the queue is a heap with right
back-indices, and it holds what a priority queue would. -/
theorem Reachable.inv {c : Client ν} {m : Multiset ν} (reachable : Reachable c m) :
    IsStrictWeakOrder ν (Higher c.higher) ∧ c.queue.Inv c.higher ∧
      (c.queue.nodes : Multiset ν) = m := by
  induction reachable with
  | init index higher order =>
    -- the empty vector has no positions to get wrong
    refine ⟨order, ⟨(fun _ _ atI => nomatch atI), (fun _ _ _ _ atI => nomatch atI)⟩, rfl⟩
  | step call _ allowed ih =>
    obtain ⟨order, inv, bag⟩ := ih
    rw [← bag]
    exact Client.call_inv order inv call allowed

end Step

/-- `intrusive_priority_queue_t` is an indexed binary heap: along every run of allowed calls no
node has higher priority than the node at its `parent_index`, every node in the vector stores
its position, the vector holds what a priority queue would, `peek` gives a node of highest
priority when there is one, and `pop` returns the node `peek` gives. -/
theorem intrusive_queue_is_indexed_heap {c : Client ν} {m : Multiset ν}
    (reachable : Reachable c m) :
    (∀ (i : Nat) (x y : ν), 0 < i → c.queue.nodes[i]? = some x →
      c.queue.nodes[parentIndex i]? = some y → c.higher x y = false) ∧
    (∀ (i : Nat) (x : ν), c.queue.nodes[i]? = some x → c.queue.index x = i) ∧
    (c.queue.nodes : Multiset ν) = m ∧
    (c.queue.peek = none ↔ m = 0) ∧
    (∀ x, c.queue.peek = some x → x ∈ m ∧ ∀ y ∈ m, c.higher y x = false) ∧
    (c.queue.pop c.higher).1 = c.queue.peek := by
  obtain ⟨order, inv, bag⟩ := reachable.inv
  refine ⟨?_, inv.indexed, bag, ?_, ?_, pop_fst⟩
  · intro i x y pos atI atP
    rw [parentIndex_eq_parent pos] at atP
    exact not_higher_iff.mp (inv.ordered i x y pos atI atP)
  · rw [peek_eq_none_iff, ← bag, Multiset.coe_eq_zero]
  · intro x top
    rw [← bag]
    obtain ⟨mem, highest⟩ := inv.peek_highest top
    exact ⟨Multiset.mem_coe.mpr mem, fun y below => highest y (Multiset.mem_coe.mp below)⟩

/-- Priorities on numbers: the smaller first. -/
def lessFirst (a b : Nat) : Bool := decide (a < b)

theorem lessFirst_order : IsStrictWeakOrder Nat (Higher lessFirst) where
  irrefl a := by simp [Higher, lessFirst]
  trans a b c := by
    simp only [Higher, lessFirst, decide_eq_true_eq]
    omega
  incomp_trans a b c := by
    simp only [Higher, lessFirst, decide_eq_true_eq]
    omega

/-- `2`, `1` and `3` pushed on an empty queue of numbers. -/
def samplePushed : Client Nat :=
  ((((⟨⟨[], fun _ => 0⟩, lessFirst⟩ : Client Nat).call (.push 2)).1.call (.push 1)).1.call
    (.push 3)).1

theorem intrusive_queue_sample_run :
    Reachable (samplePushed.call .pop).1
        (expected (3 ::ₘ 1 ::ₘ 2 ::ₘ 0) .pop (samplePushed.call .pop).2) ∧
      (∀ (i : Nat) (x y : Nat), 0 < i → (samplePushed.call .pop).1.queue.nodes[i]? = some x →
        (samplePushed.call .pop).1.queue.nodes[parentIndex i]? = some y →
        (samplePushed.call .pop).1.higher x y = false) ∧
      (∀ (i : Nat) (x : Nat), (samplePushed.call .pop).1.queue.nodes[i]? = some x →
        (samplePushed.call .pop).1.queue.index x = i) ∧
      ((samplePushed.call .pop).1.queue.nodes : Multiset Nat) =
        expected (3 ::ₘ 1 ::ₘ 2 ::ₘ 0) .pop (samplePushed.call .pop).2 ∧
      ((samplePushed.call .pop).1.queue.peek = none ↔
        expected (3 ::ₘ 1 ::ₘ 2 ::ₘ 0) .pop (samplePushed.call .pop).2 = 0) ∧
      (∀ x, (samplePushed.call .pop).1.queue.peek = some x →
        x ∈ expected (3 ::ₘ 1 ::ₘ 2 ::ₘ 0) .pop (samplePushed.call .pop).2 ∧
        ∀ y ∈ expected (3 ::ₘ 1 ::ₘ 2 ::ₘ 0) .pop (samplePushed.call .pop).2,
          (samplePushed.call .pop).1.higher y x = false) ∧
      ((samplePushed.call .pop).1.queue.pop (samplePushed.call .pop).1.higher).1 =
        (samplePushed.call .pop).1.queue.peek := by
  have reachable : Reachable (samplePushed.call .pop).1
      (expected (3 ::ₘ 1 ::ₘ 2 ::ₘ 0) .pop (samplePushed.call .pop).2) :=
    .step .pop (.step (.push 3) (.step (.push 1) (.step (.push 2)
      (.init _ _ lessFirst_order) (by simp only [Client.Allowed]; decide))
      (by simp only [Client.Allowed]; decide)) (by simp only [Client.Allowed]; decide)) trivial
  exact ⟨reachable, intrusive_queue_is_indexed_heap reachable⟩

end IntrusivePriorityQueue

end Containers
end RethinkDB
