import Mathlib
import RethinkDB.Btree.InternalRouting

namespace RethinkDB
namespace Btree

/-!
# What `level` does to two neighbouring internal nodes

`check_and_handle_underfull` (`btree/operations.cc`) levels an underfull node with a sibling
that it cannot merge with: `internal_node::level` moves pairs from the sibling into the node,
one at a time while the node with the next pair stays smaller than the sibling without it,
and hands back the key that replaces the parent's key between the two.  The parent's key goes
down into the node, on its last child when the sibling is to the right and on the sibling's
last child when it is to the left.

Read through the parent, the two nodes route a key at or below the parent's key to the left one
and the others to the right one.  `level` keeps that routing for every key, keeps both nodes
valid with the replacement key between them, and moves exactly the children it reports in
`moved_children_out`.  The loops are first described in bytes: the node never outgrows the
sibling, which is how the sibling keeps a pair for the parent and how an underfull node stays
clear of the `guarantee` at the end.
-/

namespace InternalNode

/-! ## The loops -/

/-- One move of the loops of `level`, in bytes: when the node with the pair stays below the
sibling without it, the pair fits in front of the node's heap, and after the move the node is
still the smaller of the two. -/
theorem move_room {blockSize nodeLength nodeFront siblingLength siblingFront size : Nat}
    (nodeFrontLe : nodeFront ≤ blockSize)
    (siblingFits : headerSize + (siblingLength + 1) * offsetSize ≤ siblingFront)
    (siblingHeap : siblingFront + size ≤ blockSize)
    (moves : ¬nodeLength * offsetSize + (blockSize - nodeFront) + (offsetSize + size) ≥
      (siblingLength + 1) * offsetSize + (blockSize - siblingFront) - (offsetSize + size)) :
    size ≤ nodeFront ∧
      (nodeLength + 1) * offsetSize + (blockSize - (nodeFront - size)) <
        siblingLength * offsetSize + (blockSize - (siblingFront + size)) := by
  simp only [headerSize, offsetSize] at *
  omega

theorem moveFromFront_spec {blockSize : Nat} :
    ∀ (pairs : List InternalPair) (node : InternalNode) (moved : List BlockId) (front : Nat),
      node.frontmostOffset ≤ blockSize → headerSize + pairs.length * offsetSize ≤ front →
      front + (pairs.map pairSize).sum = blockSize →
      ∃ M rest, pairs = M ++ rest ∧
        moveFromFront blockSize node moved pairs front =
          (⟨node.pairs ++ M, node.frontmostOffset - (M.map pairSize).sum⟩,
            ⟨rest, front + (M.map pairSize).sum⟩, moved ++ M.map InternalPair.lnode) ∧
        (M ≠ [] → (M.map pairSize).sum ≤ node.frontmostOffset ∧
          (node.pairs.length + M.length) * offsetSize +
              (blockSize - (node.frontmostOffset - (M.map pairSize).sum)) <
            rest.length * offsetSize + (blockSize - (front + (M.map pairSize).sum)))
  | [], node, moved, front, _, _, _ => ⟨[], [], rfl, by simp [moveFromFront], by simp⟩
  | pair :: rest, node, moved, front, nodeFrontLe, fits, heap => by
    unfold moveFromFront
    dsimp only
    split
    next => exact ⟨[], pair :: rest, rfl, by simp, by simp⟩
    next moves =>
      simp only [List.map_cons, List.sum_cons, List.length_cons] at fits heap
      have room := move_room nodeFrontLe fits (by omega) moves
      obtain ⟨M, rest', split, eq, bound⟩ := @moveFromFront_spec blockSize rest
        { node.insertPair pair with pairs := node.pairs ++ [pair] } (moved ++ [pair.lnode])
        (front + pairSize pair) (by simp only [insertPair]; omega)
        (by simp only [headerSize, offsetSize] at fits ⊢; omega) (by omega)
      refine ⟨pair :: M, rest', by rw [split, List.cons_append], ?_, fun _ => ?_⟩
      · rw [eq]
        simp [insertPair, Nat.sub_sub, Nat.add_assoc]
      · by_cases moreMoves : M = []
        · subst moreMoves
          rw [List.nil_append] at split
          subst split
          simpa using room
        · obtain ⟨le, lt⟩ := bound moreMoves
          simp only [insertPair, List.length_append, List.length_cons, List.length_nil,
            List.map_cons, List.sum_cons, offsetSize] at le lt room ⊢
          omega


theorem moveFromBack_spec {blockSize : Nat} :
    ∀ (pairs : List InternalPair) (node : InternalNode) (moved : List BlockId) (front : Nat),
      node.frontmostOffset ≤ blockSize → headerSize + pairs.length * offsetSize ≤ front →
      front + (pairs.map pairSize).sum = blockSize →
      ∃ M rest, pairs = M ++ rest ∧
        moveFromBack blockSize node moved pairs front =
          (⟨M.reverse ++ node.pairs, node.frontmostOffset - (M.map pairSize).sum⟩,
            ⟨rest.reverse, front + (M.map pairSize).sum⟩, moved ++ M.map InternalPair.lnode) ∧
        (M ≠ [] → (M.map pairSize).sum ≤ node.frontmostOffset ∧
          (node.pairs.length + M.length) * offsetSize +
              (blockSize - (node.frontmostOffset - (M.map pairSize).sum)) <
            rest.length * offsetSize + (blockSize - (front + (M.map pairSize).sum)))
  | [], node, moved, front, _, _, _ => ⟨[], [], rfl, by simp [moveFromBack], by simp⟩
  | pair :: earlier, node, moved, front, nodeFrontLe, fits, heap => by
    unfold moveFromBack
    dsimp only
    split
    next => exact ⟨[], pair :: earlier, rfl, by simp, by simp⟩
    next moves =>
      simp only [List.map_cons, List.sum_cons, List.length_cons] at fits heap
      have room := move_room nodeFrontLe fits (by omega) moves
      obtain ⟨M, rest, split, eq, bound⟩ := @moveFromBack_spec blockSize earlier
        ((node.insertPair pair).insertOffset pair 0) (moved ++ [pair.lnode])
        (front + pairSize pair) (by simp only [insertOffset, insertPair]; omega)
        (by simp only [headerSize, offsetSize] at fits ⊢; omega) (by omega)
      refine ⟨pair :: M, rest, by rw [split, List.cons_append], ?_, fun _ => ?_⟩
      · rw [eq]
        simp [insertOffset, insertPair, Nat.sub_sub, Nat.add_assoc]
      · by_cases moreMoves : M = []
        · subst moreMoves
          rw [List.nil_append] at split
          subst split
          simpa using room
        · obtain ⟨le, lt⟩ := bound moreMoves
          simp only [insertOffset, insertPair, List.insertIdx_zero, List.length_cons,
            List.map_cons, List.sum_cons, offsetSize] at le lt room ⊢
          omega


/-- Pairs take nine bytes or more each. -/
theorem length_mul_le_sum (pairs : List InternalPair) :
    pairs.length * 9 ≤ (pairs.map pairSize).sum := by
  induction pairs with
  | nil => simp
  | cons pair rest ih =>
    simp only [List.length_cons, List.map_cons, List.sum_cons]
    have := pairSize_ge pair
    omega

theorem levelDone_eq_some {node sibling : InternalNode} {replacementKey : StoreKey}
    {moved : List BlockId} {result : LevelResult}
    (done : levelDone node sibling replacementKey moved = some result) :
    result = ⟨true, node, sibling, replacementKey, moved⟩ := by
  unfold levelDone at done
  split at done
  · exact absurd done (by simp)
  · exact (Option.some.inj done).symm

/-! ## `level` in each direction -/

/-- `level` when `node` is left of `sibling` and the key from the parent fits: the separator
pairs of `node`, its last child with the key from the parent, and the pairs `M` moved from the
front of the sibling; then a last pair to the child of the sibling's next pair `q`, whose key
goes up, while the sibling keeps the pairs after `q`. -/
theorem level_from_right_eq {blockSize : Nat} {node sibling parent : InternalNode}
    {replacementKey : StoreKey} (validNode : Valid blockSize node)
    (validSibling : Valid blockSize sibling) (two : 2 ≤ sibling.pairs.length)
    (first : nodecmp node sibling < 0)
    (room : ¬headerSize + (node.pairs.length + 1) * offsetSize +
        pairSizeWithKeySize (keyFromParent parent node).contents.length ≥ node.frontmostOffset) :
    ∃ M q rest, sibling.pairs = M ++ q :: rest ∧ rest ≠ [] ∧
      headerSize + (node.pairs.length + M.length + 1) * offsetSize +
          pairSize ⟨node.lastChild, keyFromParent parent node⟩ + (M.map pairSize).sum ≤
        node.frontmostOffset ∧
      (M ≠ [] → (node.pairs.length + M.length) * offsetSize + (blockSize - node.frontmostOffset) +
          pairSize ⟨node.lastChild, keyFromParent parent node⟩ + (M.map pairSize).sum <
        (rest.length + 1) * offsetSize + ((q :: rest).map pairSize).sum) ∧
      node.level blockSize sibling replacementKey parent =
        levelDone ⟨node.keyed ++ ⟨node.lastChild, keyFromParent parent node⟩ :: M ++
              [⟨q.lnode, StoreKey.min⟩],
            node.frontmostOffset - pairSize ⟨node.lastChild, keyFromParent parent node⟩ -
              (M.map pairSize).sum⟩
          ⟨rest, sibling.frontmostOffset + (M.map pairSize).sum + pairSize q⟩ q.key
          (M.map InternalPair.lnode ++ [q.lnode]) := by
  have shape := pairs_eq_keyed_append validNode.nonempty
  have allButLast : node.pairs.take (node.pairs.length - 1) = node.keyed := by
    rw [shape]
    exact List.take_left' (by simp)
  have lastAt : node.getPairByIndex (node.pairs.length - 1) = node.pairs.getLastD default := by
    conv_lhs => rw [getPairByIndex, shape]
    simp
  have nodeFrontLe := validNode.frontLe
  have siblingHeap := validSibling.front_add_heap
  have siblingFits := validSibling.fits
  obtain ⟨M, rest, split, eq, bound⟩ := moveFromFront_spec sibling.pairs
    { pairs := node.keyed ++ [⟨node.lastChild, keyFromParent parent node⟩],
      frontmostOffset :=
        (node.insertPair ⟨node.lastChild, keyFromParent parent node⟩).frontmostOffset }
    [] sibling.frontmostOffset (by simp only [insertPair]; omega) siblingFits siblingHeap
  have nodeLength := validNode.length_eq
  have kpSize : pairSize ⟨node.lastChild, keyFromParent parent node⟩ =
      pairSizeWithKeySize (keyFromParent parent node).contents.length := rfl
  simp only [insertPair, List.length_append, List.length_singleton] at bound
  rw [split, List.map_append, List.sum_append] at siblingHeap
  rw [split, List.length_append] at siblingFits
  -- the sibling keeps two pairs or more: the last move left it larger than `node`
  have restTwo : 2 ≤ rest.length := by
    by_cases moves : M = []
    · subst moves
      simpa [split] using two
    · obtain ⟨le, lt⟩ := bound moves
      have movedSize := length_mul_le_sum M
      have someMoved := List.length_pos_iff.mpr moves
      rcases rest with _ | ⟨s, _ | ⟨t, rest⟩⟩
      · simp only [List.map_nil, List.sum_nil, List.length_nil, offsetSize] at siblingHeap lt
        omega
      · have lastSize : pairSize s = 9 := by
          have special := validSibling.special
          rw [split, List.getLastD_concat] at special
          rw [pairSize, special]
          rfl
        simp only [List.map_cons, List.map_nil, List.sum_cons, List.sum_nil, lastSize,
          List.length_cons, List.length_nil, offsetSize] at siblingHeap lt
        omega
      · simp
  obtain ⟨q, rest, rfl⟩ : ∃ q rest', rest = q :: rest' := by
    rcases rest with _ | ⟨q, rest⟩
    · simp at restTwo
    · exact ⟨q, rest, rfl⟩
  refine ⟨M, q, rest, split, ?_, ?_, fun moves => ?_, ?_⟩
  · rintro rfl
    simp at restTwo
  · by_cases moves : M = []
    · subst moves
      simp only [kpSize, headerSize, offsetSize, List.length_nil, List.map_nil,
        List.sum_nil] at room ⊢
      omega
    · obtain ⟨le, lt⟩ := bound moves
      have someMoved := List.length_pos_iff.mpr moves
      simp only [kpSize, headerSize, offsetSize, List.length_cons, List.map_cons,
        List.sum_cons] at room lt siblingFits siblingHeap le ⊢
      omega
  · obtain ⟨le, lt⟩ := bound moves
    simp only [kpSize, headerSize, offsetSize, List.length_cons, List.map_cons,
      List.sum_cons] at room lt siblingHeap le ⊢
    omega
  · unfold level
    rw [if_pos first]
    dsimp only
    rw [if_neg room, allButLast, lastAt,
      show (node.pairs.getLastD default).lnode = node.lastChild from rfl, validNode.special, eq]
    simp [getPairByIndex, deletePair, deleteOffset, insertPair]


/-- `level` when `node` is right of `sibling` and the key from the parent fits: the pairs `M`
moved from the back of the sibling's separator pairs, the sibling's last child with the key
from the parent, and the pairs of `node`; the sibling keeps its separator pairs before `M`, the
last of them, `c`, now its last pair, whose key goes up. -/
theorem level_from_left_eq {blockSize : Nat} {node sibling parent : InternalNode}
    {replacementKey : StoreKey} (validNode : Valid blockSize node)
    (validSibling : Valid blockSize sibling) (two : 2 ≤ sibling.pairs.length)
    (later : ¬nodecmp node sibling < 0)
    (room : ¬headerSize + (node.pairs.length + 1) * offsetSize +
        pairSizeWithKeySize (keyFromParent parent sibling).contents.length ≥ node.frontmostOffset) :
    ∃ M c rest, sibling.keyed = rest ++ c :: M ∧
      headerSize + (node.pairs.length + M.length + 1) * offsetSize +
          pairSize ⟨sibling.lastChild, keyFromParent parent sibling⟩ + (M.map pairSize).sum ≤
        node.frontmostOffset ∧
      (M ≠ [] → (node.pairs.length + 1 + M.length) * offsetSize +
          (blockSize - node.frontmostOffset) +
          pairSize ⟨sibling.lastChild, keyFromParent parent sibling⟩ + (M.map pairSize).sum <
        (rest.length + 1) * offsetSize + ((rest ++ [c]).map pairSize).sum) ∧
      node.level blockSize sibling replacementKey parent =
        levelDone ⟨M ++ ⟨sibling.lastChild, keyFromParent parent sibling⟩ :: node.pairs,
            node.frontmostOffset - pairSize ⟨sibling.lastChild, keyFromParent parent sibling⟩ -
              (M.map pairSize).sum⟩
          ⟨rest ++ [⟨c.lnode, StoreKey.min⟩],
            sibling.frontmostOffset + (M.map pairSize).sum + pairSize c⟩
          c.key (sibling.lastChild :: M.reverse.map InternalPair.lnode) := by
  have lastAt :
      sibling.getPairByIndex (sibling.pairs.length - 1) = sibling.pairs.getLastD default := by
    conv_lhs => rw [getPairByIndex, pairs_eq_keyed_append validSibling.nonempty]
    simp
  have lastSize : pairSize (sibling.pairs.getLastD default) = 9 := by
    rw [pairSize, validSibling.special]
    rfl
  have nodeFrontLe := validNode.frontLe
  have siblingHeap := validSibling.heap_eq
  have siblingFits := validSibling.fits
  have siblingLength := validSibling.length_eq
  have kpSize : pairSize ⟨sibling.lastChild, keyFromParent parent sibling⟩ =
      pairSizeWithKeySize (keyFromParent parent sibling).contents.length := rfl
  -- what the loop starts from: the sibling without its last pair, read from the back
  obtain ⟨M, R, split, eq, bound⟩ := @moveFromBack_spec blockSize sibling.keyed.reverse
    ((node.insertPair ⟨sibling.lastChild, keyFromParent parent sibling⟩).insertOffset
      ⟨sibling.lastChild, keyFromParent parent sibling⟩ 0) [sibling.lastChild]
    (sibling.frontmostOffset + 9) (by simp only [insertOffset, insertPair]; omega)
    (by
      simp only [List.length_reverse, headerSize, offsetSize] at siblingFits siblingLength ⊢
      omega)
    (by rw [List.map_reverse, List.sum_reverse]; omega)
  simp only [insertOffset, insertPair, List.insertIdx_zero, List.length_cons] at bound
  have keyedEq : sibling.keyed = R.reverse ++ M.reverse := by
    rw [← List.reverse_append, ← split, List.reverse_reverse]
  rw [keyedEq, List.map_append, List.sum_append, List.map_reverse, List.sum_reverse,
    List.map_reverse, List.sum_reverse] at siblingHeap
  rw [keyedEq, List.length_append, List.length_reverse, List.length_reverse] at siblingLength
  -- the sibling keeps a separator pair: the last move left it larger than `node`
  obtain ⟨rest, c, restEq⟩ : ∃ rest c, R.reverse = rest ++ [c] := by
    rcases R.reverse.eq_nil_or_concat with empty | ⟨rest, c, restEq⟩
    · exfalso
      rw [List.reverse_eq_nil_iff] at empty
      subst empty
      by_cases moves : M = []
      · subst moves
        simp only [List.length_nil] at siblingLength
        omega
      · obtain ⟨le, lt⟩ := bound moves
        simp only [List.length_nil, List.map_nil, List.sum_nil, offsetSize] at siblingHeap lt
        omega
    · exact ⟨rest, c, by rw [restEq, List.concat_eq_append]⟩
  refine ⟨M.reverse, c, rest, by rw [keyedEq, restEq, List.append_assoc, List.singleton_append], ?_,
    fun moves => ?_, ?_⟩
  · rw [List.length_reverse, List.map_reverse, List.sum_reverse]
    by_cases moves : M = []
    · subst moves
      simp only [kpSize, headerSize, offsetSize, List.length_nil, List.map_nil,
        List.sum_nil] at room ⊢
      omega
    · obtain ⟨le, lt⟩ := bound moves
      have someMoved := List.length_pos_iff.mpr moves
      simp only [kpSize, headerSize, offsetSize] at room lt siblingFits le ⊢
      omega
  · obtain ⟨le, lt⟩ := bound (by simpa using moves)
    have restLength := congrArg List.length restEq
    have restSum := congrArg (fun pairs => (pairs.map pairSize).sum) restEq
    simp only [List.length_reverse, List.length_append, List.length_singleton] at restLength
    simp only [List.map_reverse, List.sum_reverse] at restSum
    rw [List.length_reverse, List.map_reverse, List.sum_reverse, ← restSum]
    simp only [kpSize, headerSize, offsetSize] at room lt le ⊢
    omega
  · have restOf : (sibling.deletePair (sibling.pairs.getLastD default)).deleteOffset
        (sibling.pairs.length - 1) = ⟨sibling.keyed, sibling.frontmostOffset + 9⟩ := by
      simp only [deleteOffset, deletePair, lastSize, List.eraseIdx_length_sub_one, keyed]
    unfold level
    rw [if_neg later]
    dsimp only
    rw [if_neg room, lastAt,
      show (sibling.pairs.getLastD default).lnode = sibling.lastChild from rfl, restOf]
    dsimp only
    rw [eq]
    dsimp only
    rw [restEq, makeLastPairSpecial_eq rfl]
    simp [getPairByIndex, insertOffset, insertPair, List.map_reverse, List.sum_reverse,
      Nat.add_right_comm _ 9]


/-! ## Routing through the two nodes -/

section Moving

variable {A M B : List InternalPair} {separator : StoreKey} {q : InternalPair}
  {first last : BlockId}

/-- Routing through two neighbours split at `separator` is unchanged when the pairs `M` and `q`
move from the front of the right one to the back of the left one, with the left one's last
child keyed by `separator` and `q`'s key the new split. -/
theorem route_move_to_left (below : ∀ pair ∈ A, pair.key < separator)
    (above : ∀ pair ∈ M ++ [q], separator < pair.key) (sorted : ∀ pair ∈ M, pair.key < q.key)
    (k : StoreKey) :
    (if k ≤ q.key then route (A ++ ⟨first, separator⟩ :: M) q.lnode k else route B last k) =
      if k ≤ separator then route A first k else route (M ++ q :: B) last k := by
  have qAbove : separator < q.key := above q (by simp)
  by_cases left : k ≤ separator
  · rw [if_pos (le_trans left (le_of_lt qAbove)), if_pos left, route_append,
      route_cons_of_le (show k ≤ separator from left)]
  · rw [if_neg left]
    have beyond : separator < k := lt_of_not_ge left
    by_cases upTo : k ≤ q.key
    · rw [if_pos upTo, route_append, route_cons_of_lt (show separator < k from beyond),
        route_of_lt fun pair member => (below pair member).trans beyond, route_append,
        route_cons_of_le upTo]
    · have past : q.key < k := lt_of_not_ge upTo
      rw [if_neg upTo, route_append, route_cons_of_lt past,
        route_of_lt fun pair member => (sorted pair member).trans past]

/-- Routing through two neighbours split at `separator` is unchanged when the pairs `M` move
from the back of the left one to the front of the right one, the left one's last child going
with them keyed by `separator`, and the left one's pair `c` before them becomes its last, its
key the new split. -/
theorem route_move_to_right {c : InternalPair} (below : ∀ pair ∈ c :: M, pair.key < separator)
    (sorted : ∀ pair ∈ B, pair.key < c.key) (k : StoreKey) :
    (if k ≤ c.key then route B c.lnode k else route (M ++ ⟨first, separator⟩ :: A) last k) =
      if k ≤ separator then route (B ++ c :: M) first k else route A last k := by
  have cBelowSeparator : c.key < separator := below c (by simp)
  by_cases upTo : k ≤ c.key
  · rw [if_pos upTo, if_pos (le_trans upTo (le_of_lt cBelowSeparator)), route_append,
      route_cons_of_le upTo]
  · have past : c.key < k := lt_of_not_ge upTo
    rw [if_neg upTo]
    by_cases left : k ≤ separator
    · rw [if_pos left, route_append M, route_cons_of_le (show k ≤ separator from left),
        route_append B, route_of_lt fun pair member => (sorted pair member).trans past,
        route_cons_of_lt past]
    · have beyond : separator < k := lt_of_not_ge left
      rw [if_neg left, route_append, route_cons_of_lt beyond,
        route_of_lt fun pair member => (below pair (List.mem_cons_of_mem _ member)).trans beyond]

end Moving


/-! ## What `level` keeps -/

/-- `level` of a valid node with its right sibling, below a parent whose key between them is
above the separator keys of `node` and below those of the sibling: both nodes stay valid, the
replacement key separates them again, every key is routed through the two to the child it was
routed to before, and the children that moved, as `moved_children_out` lists them, are those
the sibling lost and `node` gained. -/
theorem level_from_right_sibling_routes {blockSize : Nat} {node sibling parent : InternalNode}
    {replacementKey : StoreKey} {result : LevelResult}
    (validNode : Valid blockSize node) (validSibling : Valid blockSize sibling)
    (two : 2 ≤ sibling.pairs.length) (first : nodecmp node sibling < 0)
    (below : ∀ pair ∈ node.keyed, pair.key < keyFromParent parent node)
    (above : ∀ pair ∈ sibling.keyed, keyFromParent parent node < pair.key)
    (leveled : node.level blockSize sibling replacementKey parent = some result)
    (moved : result.leveled = true) :
    Valid blockSize result.node ∧ Valid blockSize result.sibling ∧
      (∀ pair ∈ result.node.keyed, pair.key < result.replacementKey) ∧
      (∀ pair ∈ result.sibling.keyed, result.replacementKey < pair.key) ∧
      (∀ k, (if k ≤ result.replacementKey then result.node.lookup k else result.sibling.lookup k) =
        if k ≤ keyFromParent parent node then node.lookup k else sibling.lookup k) ∧
      result.node.pairs.map InternalPair.lnode =
        node.pairs.map InternalPair.lnode ++ result.movedChildren ∧
      sibling.pairs.map InternalPair.lnode =
        result.movedChildren ++ result.sibling.pairs.map InternalPair.lnode := by
  -- a key from the parent that does not fit leaves both nodes alone
  by_cases full : headerSize + (node.pairs.length + 1) * offsetSize +
      pairSizeWithKeySize (keyFromParent parent node).contents.length ≥ node.frontmostOffset
  · unfold level at leveled
    rw [if_pos first] at leveled
    dsimp only at leveled
    rw [if_pos full] at leveled
    cases leveled
    simp at moved
  obtain ⟨M, q, rest, split, restNe, fits, -, eq⟩ :=
    @level_from_right_eq blockSize node sibling parent replacementKey validNode validSibling two
      first full
  rw [eq] at leveled
  cases levelDone_eq_some leveled
  dsimp only
  -- the sibling: `M`, then `q`, then the pairs `B` it keeps, and its last pair
  obtain ⟨B, lastPair, rfl⟩ : ∃ B lastPair, rest = B ++ [lastPair] := by
    rcases rest.eq_nil_or_concat with empty | ⟨B, lastPair, restEq⟩
    · exact absurd empty restNe
    · exact ⟨B, lastPair, by rw [restEq, List.concat_eq_append]⟩
  have siblingKeyed : sibling.keyed = M ++ q :: B := by
    rw [keyed, split, ← List.cons_append, ← List.append_assoc, List.dropLast_concat]
  have lastSpecial : lastPair.key = StoreKey.min := by
    have special := validSibling.special
    rwa [split, ← List.cons_append, ← List.append_assoc, List.getLastD_concat] at special
  have sorted := validSibling.sorted
  rw [siblingKeyed] at sorted above
  have movedSorted := (List.pairwise_append.mp sorted).1
  have keptSorted := (List.pairwise_append.mp sorted).2.1
  have movedBelow : ∀ pair ∈ M, pair.key < q.key :=
    fun pair member => (List.pairwise_append.mp sorted).2.2 pair member q List.mem_cons_self
  have keptAbove : ∀ pair ∈ B, q.key < pair.key := (List.pairwise_cons.mp keptSorted).1
  have separatorBelow : keyFromParent parent node < q.key := above q (by simp)
  -- the sizes of both nodes, in bytes
  have nodeHeap := validNode.heap_eq
  have siblingHeap := validSibling.heap_eq
  have siblingFits := validSibling.fits
  rw [siblingKeyed] at siblingHeap
  rw [split] at siblingFits
  simp only [List.length_append, List.length_cons, List.length_nil, headerSize,
    offsetSize] at siblingFits
  simp only [List.map_append, List.map_cons, List.sum_append, List.sum_cons] at siblingHeap
  have lastSize : pairSize lastPair = 9 := by rw [pairSize, lastSpecial]; rfl
  refine ⟨?_, ?_, ?_, ?_, ?_, ?_, ?_⟩
  · refine valid_of_pairs_eq rfl rfl ?_ ?_ ?_
    · refine List.pairwise_append.mpr ⟨validNode.sorted, List.pairwise_cons.mpr
        ⟨fun pair member => above pair (List.mem_append_left _ member), movedSorted⟩, ?_⟩
      intro a kept b member
      rcases List.mem_cons.mp member with rfl | member
      · exact below a kept
      · exact (below a kept).trans (above b (List.mem_append_left _ member))
    · simp only [List.length_append, List.length_cons, validNode.length_eq] at fits ⊢
      simp only [headerSize, offsetSize] at fits ⊢
      omega
    · simp only [List.map_append, List.map_cons, List.sum_append, List.sum_cons, pairSize_special]
      omega
  · refine valid_of_pairs_eq rfl lastSpecial (keptSorted.sublist (List.sublist_cons_self _ _)) ?_ ?_
    · simp only [headerSize, offsetSize]
      omega
    · dsimp only
      omega
  · intro pair member
    rw [keyed, List.dropLast_concat] at member
    rcases List.mem_append.mp member with kept | member
    · exact (below pair kept).trans separatorBelow
    · rcases List.mem_cons.mp member with rfl | member
      · exact separatorBelow
      · exact movedBelow pair member
  · intro pair member
    rw [keyed, List.dropLast_concat] at member
    exact keptAbove pair member
  · intro k
    have siblingPairs : sibling.pairs = (M ++ q :: B) ++ [lastPair] := by
      rw [split, List.append_assoc, List.cons_append]
    rw [@lookup_of_pairs_eq _ (node.keyed ++ _ :: M) _ rfl, @lookup_of_pairs_eq _ B _ rfl,
      lookup_eq_route validNode.nonempty, lookup_of_pairs_eq siblingPairs]
    exact route_move_to_left below (fun pair member => above pair (by simp at member ⊢; tauto))
      movedBelow k
  · conv_rhs => rw [pairs_eq_keyed_append validNode.nonempty]
    simp [lastChild]
  · simp [split]


/-- A node of one key `10` levels with a right sibling of keys `30` to `80` below the parent key
`20`: the loop moves the sibling's first two pairs, and the child of the third follows, its key
`50` going up. -/
theorem level_moves_pairs_from_right_sibling :
    ∃ node sibling parent : InternalNode, ∃ result : LevelResult,
      node = ⟨[⟨1, .ofByte 10⟩, ⟨2, .min⟩], 4077⟩ ∧
      sibling = ⟨[⟨3, .ofByte 30⟩, ⟨4, .ofByte 40⟩, ⟨7, .ofByte 50⟩, ⟨8, .ofByte 60⟩,
        ⟨9, .ofByte 70⟩, ⟨11, .ofByte 80⟩, ⟨12, .min⟩], 4027⟩ ∧
      parent = ⟨[⟨5, .ofByte 20⟩, ⟨6, .min⟩], 4077⟩ ∧
      Valid 4096 node ∧ Valid 4096 sibling ∧ 2 ≤ sibling.pairs.length ∧ nodecmp node sibling < 0 ∧
      (∀ pair ∈ node.keyed, pair.key < keyFromParent parent node) ∧
      (∀ pair ∈ sibling.keyed, keyFromParent parent node < pair.key) ∧
      node.level 4096 sibling .min parent = some result ∧ result.leveled = true ∧
      result.movedChildren = [3, 4, 7] ∧ result.replacementKey = .ofByte 50 ∧
      Valid 4096 result.node ∧ Valid 4096 result.sibling ∧
      (∀ pair ∈ result.node.keyed, pair.key < result.replacementKey) ∧
      (∀ pair ∈ result.sibling.keyed, result.replacementKey < pair.key) ∧
      (∀ k, (if k ≤ result.replacementKey then result.node.lookup k else result.sibling.lookup k) =
        if k ≤ keyFromParent parent node then node.lookup k else sibling.lookup k) ∧
      result.node.pairs.map InternalPair.lnode =
        node.pairs.map InternalPair.lnode ++ result.movedChildren ∧
      sibling.pairs.map InternalPair.lnode =
        result.movedChildren ++ result.sibling.pairs.map InternalPair.lnode := by
  have validNode : Valid 4096 ⟨[⟨1, .ofByte 10⟩, ⟨2, .min⟩], 4077⟩ :=
    ⟨by decide, by decide, by decide, by decide, by decide, by decide⟩
  have validSibling : Valid 4096 ⟨[⟨3, .ofByte 30⟩, ⟨4, .ofByte 40⟩, ⟨7, .ofByte 50⟩,
      ⟨8, .ofByte 60⟩, ⟨9, .ofByte 70⟩, ⟨11, .ofByte 80⟩, ⟨12, .min⟩], 4027⟩ :=
    ⟨by decide, by decide, by decide, by decide, by decide, by decide⟩
  exact ⟨_, _, _, _, rfl, rfl, rfl, validNode, validSibling, by decide, by decide, by decide,
    by decide, rfl, rfl, rfl, rfl,
    @level_from_right_sibling_routes 4096 _ _ _ .min _ validNode validSibling (by decide)
      (by decide) (by decide) (by decide) rfl rfl⟩


/-- `level` of a valid node with its left sibling, below a parent whose key between them is
above the separator keys of the sibling and below those of `node`: both nodes stay valid, the
replacement key separates them again, every key is routed through the two to the child it was
routed to before, and the children that moved, in the reverse of the order
`moved_children_out` lists them, are those the sibling lost and `node` gained. -/
theorem level_from_left_sibling_routes {blockSize : Nat} {node sibling parent : InternalNode}
    {replacementKey : StoreKey} {result : LevelResult}
    (validNode : Valid blockSize node) (validSibling : Valid blockSize sibling)
    (two : 2 ≤ sibling.pairs.length) (later : ¬nodecmp node sibling < 0)
    (below : ∀ pair ∈ sibling.keyed, pair.key < keyFromParent parent sibling)
    (above : ∀ pair ∈ node.keyed, keyFromParent parent sibling < pair.key)
    (leveled : node.level blockSize sibling replacementKey parent = some result)
    (moved : result.leveled = true) :
    Valid blockSize result.node ∧ Valid blockSize result.sibling ∧
      (∀ pair ∈ result.sibling.keyed, pair.key < result.replacementKey) ∧
      (∀ pair ∈ result.node.keyed, result.replacementKey < pair.key) ∧
      (∀ k, (if k ≤ result.replacementKey then result.sibling.lookup k else result.node.lookup k) =
        if k ≤ keyFromParent parent sibling then sibling.lookup k else node.lookup k) ∧
      result.node.pairs.map InternalPair.lnode =
        result.movedChildren.reverse ++ node.pairs.map InternalPair.lnode ∧
      sibling.pairs.map InternalPair.lnode =
        result.sibling.pairs.map InternalPair.lnode ++ result.movedChildren.reverse := by
  -- a key from the parent that does not fit leaves both nodes alone
  by_cases full : headerSize + (node.pairs.length + 1) * offsetSize +
      pairSizeWithKeySize (keyFromParent parent sibling).contents.length ≥ node.frontmostOffset
  · unfold level at leveled
    rw [if_neg later] at leveled
    dsimp only at leveled
    rw [if_pos full] at leveled
    cases leveled
    simp at moved
  obtain ⟨M, c, rest, siblingKeyed, fits, -, eq⟩ :=
    @level_from_left_eq blockSize node sibling parent replacementKey validNode validSibling two
      later full
  rw [eq] at leveled
  cases levelDone_eq_some leveled
  dsimp only
  have sorted := validSibling.sorted
  rw [siblingKeyed] at sorted below
  have keptSorted := (List.pairwise_append.mp sorted).1
  have keptBelow : ∀ pair ∈ rest, pair.key < c.key :=
    fun pair member => (List.pairwise_append.mp sorted).2.2 pair member c List.mem_cons_self
  have movedSorted := (List.pairwise_cons.mp (List.pairwise_append.mp sorted).2.1).2
  have movedAbove : ∀ pair ∈ M, c.key < pair.key :=
    (List.pairwise_cons.mp (List.pairwise_append.mp sorted).2.1).1
  have separatorAbove : c.key < keyFromParent parent sibling := below c (by simp)
  have nodeShape : M ++ ⟨sibling.lastChild, keyFromParent parent sibling⟩ :: node.pairs =
      (M ++ ⟨sibling.lastChild, keyFromParent parent sibling⟩ :: node.keyed) ++
        [node.pairs.getLastD default] := by
    conv_lhs => rw [pairs_eq_keyed_append validNode.nonempty]
    simp
  -- the sizes of both nodes, in bytes
  have nodeHeap := validNode.heap_eq
  have siblingHeap := validSibling.heap_eq
  have siblingFits := validSibling.fits
  rw [siblingKeyed] at siblingHeap
  rw [validSibling.length_eq, siblingKeyed] at siblingFits
  simp only [List.length_append, List.length_cons, headerSize, offsetSize] at siblingFits
  simp only [List.map_append, List.map_cons, List.sum_append, List.sum_cons] at siblingHeap
  refine ⟨?_, ?_, ?_, ?_, ?_, ?_, ?_⟩
  · refine valid_of_pairs_eq nodeShape validNode.special ?_ ?_ ?_
    · refine List.pairwise_append.mpr ⟨movedSorted, List.pairwise_cons.mpr
        ⟨above, validNode.sorted⟩, ?_⟩
      intro a member b later
      have belowSeparator : a.key < keyFromParent parent sibling := below a (by simp [member])
      rcases List.mem_cons.mp later with rfl | later
      · exact belowSeparator
      · exact belowSeparator.trans (above b later)
    · simp only [List.length_append, List.length_cons, validNode.length_eq] at fits ⊢
      simp only [headerSize, offsetSize] at fits ⊢
      omega
    · have lastSize : pairSize (node.pairs.getLastD default) = 9 := by
        rw [pairSize, validNode.special]
        rfl
      simp only [List.map_append, List.map_cons, List.sum_append, List.sum_cons, lastSize]
      omega
  · refine valid_of_pairs_eq rfl rfl keptSorted ?_ ?_
    · simp only [headerSize, offsetSize]
      omega
    · simp only [pairSize_special]
      omega
  · intro pair member
    rw [keyed, List.dropLast_concat] at member
    exact keptBelow pair member
  · intro pair member
    rw [keyed, nodeShape, List.dropLast_concat] at member
    rcases List.mem_append.mp member with member | member
    · exact movedAbove pair member
    · rcases List.mem_cons.mp member with rfl | member
      · exact separatorAbove
      · exact separatorAbove.trans (above pair member)
  · intro k
    rw [@lookup_of_pairs_eq _ rest _ rfl, lookup_of_pairs_eq nodeShape,
      lookup_eq_route validNode.nonempty, lookup_eq_route validSibling.nonempty, siblingKeyed]
    exact route_move_to_right (fun pair member => below pair (List.mem_append_right _ member))
      keptBelow k
  · simp
  · conv_lhs => rw [pairs_eq_keyed_append validSibling.nonempty, siblingKeyed]
    simp [lastChild]



/-- A node of one key `90` levels with a left sibling of keys `10` to `60` below the parent key
`80`: the sibling's last child comes first with the key `80`, the loop moves the sibling's pair
of key `60`, and the pair of key `50` becomes the sibling's last, its key going up. -/
theorem level_moves_pairs_from_left_sibling :
    ∃ node sibling parent : InternalNode, ∃ result : LevelResult,
      node = ⟨[⟨1, .ofByte 90⟩, ⟨2, .min⟩], 4077⟩ ∧
      sibling = ⟨[⟨3, .ofByte 10⟩, ⟨4, .ofByte 20⟩, ⟨7, .ofByte 30⟩, ⟨8, .ofByte 40⟩,
        ⟨9, .ofByte 50⟩, ⟨11, .ofByte 60⟩, ⟨12, .min⟩], 4027⟩ ∧
      parent = ⟨[⟨5, .ofByte 80⟩, ⟨6, .min⟩], 4077⟩ ∧
      Valid 4096 node ∧ Valid 4096 sibling ∧ 2 ≤ sibling.pairs.length ∧ ¬nodecmp node sibling < 0 ∧
      (∀ pair ∈ sibling.keyed, pair.key < keyFromParent parent sibling) ∧
      (∀ pair ∈ node.keyed, keyFromParent parent sibling < pair.key) ∧
      node.level 4096 sibling .min parent = some result ∧ result.leveled = true ∧
      result.movedChildren = [12, 11] ∧ result.replacementKey = .ofByte 50 ∧
      Valid 4096 result.node ∧ Valid 4096 result.sibling ∧
      (∀ pair ∈ result.sibling.keyed, pair.key < result.replacementKey) ∧
      (∀ pair ∈ result.node.keyed, result.replacementKey < pair.key) ∧
      (∀ k, (if k ≤ result.replacementKey then result.sibling.lookup k else result.node.lookup k) =
        if k ≤ keyFromParent parent sibling then sibling.lookup k else node.lookup k) ∧
      result.node.pairs.map InternalPair.lnode =
        result.movedChildren.reverse ++ node.pairs.map InternalPair.lnode ∧
      sibling.pairs.map InternalPair.lnode =
        result.sibling.pairs.map InternalPair.lnode ++ result.movedChildren.reverse := by
  have validNode : Valid 4096 ⟨[⟨1, .ofByte 90⟩, ⟨2, .min⟩], 4077⟩ :=
    ⟨by decide, by decide, by decide, by decide, by decide, by decide⟩
  have validSibling : Valid 4096 ⟨[⟨3, .ofByte 10⟩, ⟨4, .ofByte 20⟩, ⟨7, .ofByte 30⟩,
      ⟨8, .ofByte 40⟩, ⟨9, .ofByte 50⟩, ⟨11, .ofByte 60⟩, ⟨12, .min⟩], 4027⟩ :=
    ⟨by decide, by decide, by decide, by decide, by decide, by decide⟩
  exact ⟨_, _, _, _, rfl, rfl, rfl, validNode, validSibling, by decide, by decide, by decide,
    by decide, rfl, rfl, rfl, rfl,
    @level_from_left_sibling_routes 4096 _ _ _ .min _ validNode validSibling (by decide)
      (by decide) (by decide) (by decide) rfl rfl⟩

/-! ## The caller's precondition -/

/-- What `is_underfull` leaves of a node's bytes: its offsets and heap are below half the block by
more than two pairs of the largest key. -/
theorem bytes_of_underfull {blockSize : Nat} {node : InternalNode}
    (underfull : node.isUnderfull blockSize = true) :
    node.pairs.length * offsetSize + (blockSize - node.frontmostOffset) + 522 < blockSize / 2 := by
  unfold isUnderfull at underfull
  have below := of_decide_eq_true underfull
  simp only [headerSize, internalEpsilon, maxKeySize] at below
  omega

/-- `level` of an underfull node, as `check_and_handle_underfull` calls it, levels and never
fails its `guarantee` that the node is not left dangerously full: the key from the parent
fits, and the node ends up at most as large as half of the two nodes together, with at least
the largest key still fitting. -/
theorem level_levels_underfull {blockSize : Nat} {node sibling parent : InternalNode}
    (replacementKey : StoreKey) (validNode : Valid blockSize node)
    (validSibling : Valid blockSize sibling) (two : 2 ≤ sibling.pairs.length)
    (underfull : node.isUnderfull blockSize = true) :
    ∃ result, node.level blockSize sibling replacementKey parent = some result ∧
      result.leveled = true := by
  have small := bytes_of_underfull underfull
  have nodeFrontLe := validNode.frontLe
  have siblingFilled := validSibling.front_add_heap
  have siblingFits := validSibling.fits
  have movedSize := fun M => length_mul_le_sum M
  by_cases first : nodecmp node sibling < 0
  · have keySize := (keyFromParent parent node).size_le
    have room : ¬headerSize + (node.pairs.length + 1) * offsetSize +
        pairSizeWithKeySize (keyFromParent parent node).contents.length ≥ node.frontmostOffset := by
      simp only [headerSize, offsetSize, pairSizeWithKeySize, maxKeySize] at keySize small ⊢
      omega
    obtain ⟨M, q, rest, split, -, fits, smaller, eq⟩ :=
      @level_from_right_eq blockSize node sibling parent replacementKey validNode validSibling two
        first room
    rw [eq, levelDone, if_neg]
    · exact ⟨_, rfl, rfl⟩
    -- the node is at most half of both, and an underfull node is far below half the block
    have keyedSize : pairSize ⟨node.lastChild, keyFromParent parent node⟩ ≤ 259 := by
      simp only [pairSize, pairSizeWithKeySize, maxKeySize] at keySize ⊢
      omega
    rw [split, List.map_append, List.sum_append] at siblingFilled
    rw [split, List.length_append] at siblingFits
    simp only [changeUnsafe, decide_eq_true_eq, List.length_append, List.length_cons,
      List.length_nil, validNode.length_eq, maxKeySize, headerSize,
      offsetSize] at fits smaller siblingFits small ⊢
    by_cases moves : M = []
    · subst moves
      simp only [List.length_nil, List.map_nil, List.sum_nil] at fits ⊢
      omega
    · have := smaller moves
      have := movedSize M
      have := List.length_pos_iff.mpr moves
      omega
  · have keySize := (keyFromParent parent sibling).size_le
    have room : ¬headerSize + (node.pairs.length + 1) * offsetSize +
        pairSizeWithKeySize (keyFromParent parent sibling).contents.length ≥
          node.frontmostOffset := by
      simp only [headerSize, offsetSize, pairSizeWithKeySize, maxKeySize] at keySize small ⊢
      omega
    obtain ⟨M, c, rest, siblingKeyed, fits, smaller, eq⟩ :=
      @level_from_left_eq blockSize node sibling parent replacementKey validNode validSibling two
        first room
    rw [eq, levelDone, if_neg]
    · exact ⟨_, rfl, rfl⟩
    have keyedSize : pairSize ⟨sibling.lastChild, keyFromParent parent sibling⟩ ≤ 259 := by
      simp only [pairSize, pairSizeWithKeySize, maxKeySize] at keySize ⊢
      omega
    have siblingHeap := validSibling.heap_eq
    rw [siblingKeyed] at siblingHeap
    rw [validSibling.length_eq, siblingKeyed] at siblingFits
    simp only [List.map_append, List.map_cons, List.map_nil, List.sum_append, List.sum_cons,
      List.sum_nil] at siblingHeap smaller
    simp only [changeUnsafe, decide_eq_true_eq, List.length_append, List.length_cons, maxKeySize,
      headerSize, offsetSize] at fits smaller siblingFits small ⊢
    by_cases moves : M = []
    · subst moves
      simp only [List.length_nil, List.map_nil, List.sum_nil] at fits ⊢
      omega
    · have := smaller moves
      have := movedSize M
      have := List.length_pos_iff.mpr moves
      omega

/-- The node of one key `10` is underfull in a block of 4096 bytes and levels with a sibling
of one key `30`. -/
theorem level_levels_one_key_node :
    ∃ node sibling parent : InternalNode, node = ⟨[⟨1, .ofByte 10⟩, ⟨2, .min⟩], 4077⟩ ∧
      sibling = ⟨[⟨3, .ofByte 30⟩, ⟨4, .min⟩], 4077⟩ ∧
      parent = ⟨[⟨5, .ofByte 20⟩, ⟨6, .min⟩], 4077⟩ ∧
      Valid 4096 node ∧ Valid 4096 sibling ∧ 2 ≤ sibling.pairs.length ∧
      node.isUnderfull 4096 = true ∧
      ∃ result, node.level 4096 sibling .min parent = some result ∧ result.leveled = true := by
  have validNode : Valid 4096 ⟨[⟨1, .ofByte 10⟩, ⟨2, .min⟩], 4077⟩ :=
    ⟨by decide, by decide, by decide, by decide, by decide, by decide⟩
  have validSibling : Valid 4096 ⟨[⟨3, .ofByte 30⟩, ⟨4, .min⟩], 4077⟩ :=
    ⟨by decide, by decide, by decide, by decide, by decide, by decide⟩
  have two : 2 ≤ (InternalNode.mk [⟨3, .ofByte 30⟩, ⟨4, .min⟩] 4077).pairs.length := by decide
  have underfull : (InternalNode.mk [⟨1, .ofByte 10⟩, ⟨2, .min⟩] 4077).isUnderfull 4096 = true := by
    decide
  exact ⟨_, _, _, rfl, rfl, rfl, validNode, validSibling, two, underfull,
    level_levels_underfull .min validNode validSibling two underfull⟩

end InternalNode

end Btree
end RethinkDB
