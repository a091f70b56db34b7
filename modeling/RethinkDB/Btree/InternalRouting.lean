import Mathlib
import RethinkDB.Btree.InternalNode

namespace RethinkDB
namespace Btree

/-!
# What `insert`, `remove`, `split` and `merge` do to the routing of an internal node

A valid internal node routes every key to a child (`InternalNode.lookup`, which is
`InternalNode.route` over its separator pairs).  Each operation is stated as what it does to
that routing: `insert` cuts the slot of its key in two, `remove` hands the slot of its pair
to a neighbour, `split` and `merge` cut and join at the median and at the key from the
parent.
-/

namespace InternalNode

/-! ## Lists -/

theorem insertIdx_append_length {α : Type} (A C : List α) (x : α) :
    (A ++ C).insertIdx A.length x = A ++ x :: C := by
  induction A with
  | nil => exact List.insertIdx_zero
  | cons a rest ih => simp [List.insertIdx_succ_cons, ih]

theorem modify_append_length_succ {α : Type} (A C : List α) (x : α) (f : α → α) :
    (A ++ x :: C).modify (A.length + 1) f = A ++ x :: C.modifyHead f := by
  induction A with
  | nil =>
    cases C <;> rfl
  | cons a rest ih => simp [List.modify_succ_cons, ih]

theorem eraseIdx_append_length {α : Type} (A C : List α) (x : α) :
    (A ++ x :: C).eraseIdx A.length = A ++ C := by
  induction A with
  | nil => rfl
  | cons a rest ih => simp [ih]

/-! ## `insert` -/

/-- `insert` on a valid node with room puts the new pair at the slot of its key, and the pair
that followed it there now leads to `rnode`. -/
theorem insert_pairs {blockSize : Nat} {node : InternalNode} (valid : Valid blockSize node)
    (room : node.isFull = false) {key : StoreKey} {A B : List InternalPair}
    (split : node.keyed = A ++ B) (atSlot : slot node.keyed key = A.length) (lnode rnode : BlockId) :
    (node.insert key lnode rnode).1.pairs =
      A ++ ⟨lnode, key⟩ :: (B ++ [node.pairs.getLastD default]).modifyHead
        fun pair => { pair with lnode := rnode } := by
  have shape := pairs_eq_keyed_append valid.nonempty
  have notEmpty : node.pairs.length ≠ 0 := fun zero => valid.nonempty (List.length_eq_zero_iff.mp zero)
  unfold insert
  simp only [room, Bool.false_eq_true, if_false, notEmpty]
  rw [getOffsetIndex_eq valid.nonempty, atSlot]
  show ((node.pairs.insertIdx A.length ⟨lnode, key⟩).modify (A.length + 1) _) = _
  generalize node.pairs.getLastD default = lastPair at shape ⊢
  rw [shape, split, List.append_assoc, insertIdx_append_length, modify_append_length_succ]

/-- No pair covers a key: every key is below it. -/
theorem lt_of_not_covered {A : List InternalPair} {k : StoreKey}
    (uncovered : ¬∃ pair ∈ A, k ≤ pair.key) : ∀ pair ∈ A, pair.key < k :=
  fun pair member => lt_of_not_ge fun above => uncovered ⟨pair, member, above⟩

/-- `insert` on a valid node with room splits the slot of its key: the keys of that slot up to
`key` now go to `lnode` and the others of it to `rnode`, and every other key goes where it
went. -/
theorem lookup_insert {blockSize : Nat} {node : InternalNode} (valid : Valid blockSize node)
    (room : node.isFull = false) (key k : StoreKey) (lnode rnode : BlockId) :
    (node.insert key lnode rnode).1.lookup k =
      if node.getOffsetIndex k = node.getOffsetIndex key then (if k ≤ key then lnode else rnode)
      else node.lookup k := by
  obtain ⟨A, B, split, atSlot, -, covering⟩ := exists_split_at_slot node.keyed key
  have inserted := insert_pairs valid room split atSlot lnode rnode
  have shape := pairs_eq_keyed_append valid.nonempty
  rw [split] at shape atSlot
  rw [getOffsetIndex_of_pairs_eq shape, getOffsetIndex_of_pairs_eq shape, atSlot,
    lookup_of_pairs_eq shape]
  generalize node.pairs.getLastD default = lastPair at shape inserted
  -- the new pairs end in the last pair, now to `rnode` if nothing was after the slot
  cases B with
  | nil =>
    have newShape : (node.insert key lnode rnode).1.pairs =
        (A ++ [⟨lnode, key⟩]) ++ [{ lastPair with lnode := rnode }] := by
      simpa using inserted
    rw [lookup_of_pairs_eq newShape, route_append, List.append_nil]
    by_cases covered : ∃ pair ∈ A, k ≤ pair.key
    · rw [if_neg (by simpa using Nat.ne_of_lt (slot_append_of_covered covered []))]
      exact route_of_covered covered _ _
    · have atEnd : slot A k = A.length := by
        simpa using slot_append_of_lt (lt_of_not_covered covered) ([] : List InternalPair)
      rw [atEnd, if_pos rfl, route_of_lt (lt_of_not_covered covered)]
      rfl
  | cons next rest =>
    have newShape : (node.insert key lnode rnode).1.pairs =
        (A ++ ⟨lnode, key⟩ :: { next with lnode := rnode } :: rest) ++ [lastPair] := by
      simpa using inserted
    have keyLe : key ≤ next.key := covering next rfl
    rw [lookup_of_pairs_eq newShape, route_append, route_append]
    by_cases covered : ∃ pair ∈ A, k ≤ pair.key
    · rw [if_neg (Nat.ne_of_lt (slot_append_of_covered covered _))]
      exact route_of_covered covered _ _
    · rw [slot_append_of_lt (lt_of_not_covered covered), route_of_lt (lt_of_not_covered covered),
        route_of_lt (lt_of_not_covered covered)]
      -- the pair after the slot keeps its key and now leads to `rnode`
      have moved : ({ next with lnode := rnode } : InternalPair).key = next.key := rfl
      by_cases inSlot : k ≤ next.key
      · -- the slot of `key`: up to `key` to the new pair, beyond it to the old one
        rw [slot_cons_of_le inSlot, if_pos (Nat.add_zero _)]
        by_cases upTo : k ≤ key
        · rw [route_cons_of_le upTo, if_pos upTo]
        · rw [route_cons_of_lt (lt_of_not_ge upTo), route_cons_of_le (moved ▸ inSlot), if_neg upTo]
      · have beyond : key < k := lt_of_le_of_lt keyLe (lt_of_not_ge inSlot)
        rw [slot_cons_of_lt (lt_of_not_ge inSlot), if_neg (by omega), route_cons_of_lt beyond,
          route_cons_of_lt (moved ▸ lt_of_not_ge inSlot), route_cons_of_lt (lt_of_not_ge inSlot)]

/-- The heap of `insert` on a valid node with room gains the new pair. -/
theorem insert_frontmostOffset {blockSize : Nat} {node : InternalNode}
    (valid : Valid blockSize node) (room : node.isFull = false) (key : StoreKey)
    (lnode rnode : BlockId) :
    (node.insert key lnode rnode).1.frontmostOffset =
      node.frontmostOffset - pairSize ⟨lnode, key⟩ := by
  have notEmpty : node.pairs.length ≠ 0 :=
    fun zero => valid.nonempty (List.length_eq_zero_iff.mp zero)
  unfold insert
  simp only [room, Bool.false_eq_true, if_false, notEmpty]
  rfl

/-- `insert` on a valid node with room, of a key its slot does not already hold (the `rassert`
against duplicate keys), leaves a valid node: the new separator key falls strictly between its
neighbours, and `is_full` leaves room for its offset and its pair. -/
theorem insert_valid {blockSize : Nat} {node : InternalNode} (valid : Valid blockSize node)
    (room : node.isFull = false) {key : StoreKey}
    (fresh : (node.getPairByIndex (node.getOffsetIndex key)).key ≠ key) (lnode rnode : BlockId) :
    Valid blockSize (node.insert key lnode rnode).1 := by
  obtain ⟨A, B, split, atSlot, below, covering⟩ := exists_split_at_slot node.keyed key
  have inserted := insert_pairs valid room split atSlot lnode rnode
  have front := insert_frontmostOffset valid room key lnode rnode
  have shape := pairs_eq_keyed_append valid.nonempty
  have filled := valid.heap_eq
  have sorted := valid.sorted
  have special := valid.special
  have roomy : headerSize + (node.pairs.length + 1) * offsetSize + pairSizeWithKeySize maxKeySize <
      node.frontmostOffset := by
    simpa [isFull] using room
  have keySize : pairSize ⟨lnode, key⟩ ≤ pairSizeWithKeySize maxKeySize := by
    simp only [pairSize, pairSizeWithKeySize]
    have := key.size_le
    omega
  rw [getOffsetIndex_eq valid.nonempty, atSlot, getPairByIndex, shape, split] at fresh
  rw [split] at shape sorted filled
  generalize node.pairs.getLastD default = lastPair at shape inserted special fresh
  rw [shape] at roomy
  simp only [List.length_append, List.length_cons, List.length_nil] at roomy
  cases B with
  | nil =>
    -- the new pair is the last separator pair, and the last pair now leads to `rnode`
    have newShape : (node.insert key lnode rnode).1.pairs =
        (A ++ [⟨lnode, key⟩]) ++ [{ lastPair with lnode := rnode }] := by
      simpa using inserted
    rw [List.append_nil] at sorted filled
    apply valid_of_pairs_eq newShape special
    · exact List.pairwise_append.mpr ⟨sorted, List.pairwise_singleton _ _,
        fun a inA b isNew => (List.mem_singleton.mp isNew) ▸ below a inA⟩
    · rw [front]
      simp only [List.length_append, List.length_singleton, List.length_nil, offsetSize] at roomy ⊢
      omega
    · have lastSize : pairSize { lastPair with lnode := rnode } = 9 := by
        rw [pairSize,
          show ({ lastPair with lnode := rnode } : InternalPair).key = lastPair.key from rfl, special]
        rfl
      rw [front, lastSize]
      simp only [List.map_append, List.sum_append, List.map_cons, List.sum_cons, List.map_nil,
        List.sum_nil] at filled ⊢
      omega
  | cons next rest =>
    -- the new pair goes before `next`, whose key is above `key` by the `rassert`
    have newShape : (node.insert key lnode rnode).1.pairs =
        (A ++ ⟨lnode, key⟩ :: { next with lnode := rnode } :: rest) ++ [lastPair] := by
      simpa using inserted
    have nextAt : (A ++ next :: rest ++ [lastPair]).getD A.length default = next := by simp
    have keyLt : key < next.key :=
      lt_of_le_of_ne (covering next rfl) fun same => fresh (by rw [nextAt]; exact same.symm)
    obtain ⟨sortedA, sortedNext, cross⟩ := List.pairwise_append.mp sorted
    obtain ⟨nextBelow, sortedRest⟩ := List.pairwise_cons.mp sortedNext
    apply valid_of_pairs_eq newShape special
    · refine List.pairwise_append.mpr ⟨sortedA, ?_, ?_⟩
      · refine List.pairwise_cons.mpr ⟨?_, List.pairwise_cons.mpr ⟨nextBelow, sortedRest⟩⟩
        intro b mem
        rcases List.mem_cons.mp mem with rfl | later
        · exact keyLt
        · exact keyLt.trans (nextBelow b later)
      · intro a inA b mem
        rcases List.mem_cons.mp mem with rfl | mem
        · exact below a inA
        rcases List.mem_cons.mp mem with rfl | later
        · exact cross a inA next List.mem_cons_self
        · exact cross a inA b (List.mem_cons_of_mem next later)
    · rw [front]
      simp only [List.length_append, List.length_cons, offsetSize] at roomy ⊢
      omega
    · have moved : pairSize { next with lnode := rnode } = pairSize next := rfl
      rw [front]
      simp only [List.map_append, List.sum_append, List.map_cons, List.sum_cons, moved] at filled ⊢
      have lastSize : pairSize lastPair = 9 := by
        rw [pairSize, special]
        rfl
      omega

/-- **`insert` on an internal node.**  On a valid node with room, of a key its slot does not
already hold, `insert` succeeds and leaves a valid node that routes the keys of that slot up to
`key` to `lnode` and the others of it to `rnode`, and every other key where it went. -/
theorem insert_routes {blockSize : Nat} {node : InternalNode} (valid : Valid blockSize node)
    (room : node.isFull = false) (key : StoreKey)
    (fresh : (node.getPairByIndex (node.getOffsetIndex key)).key ≠ key) (lnode rnode : BlockId) :
    (node.insert key lnode rnode).2 = true ∧ Valid blockSize (node.insert key lnode rnode).1 ∧
      ∀ k, (node.insert key lnode rnode).1.lookup k =
        if node.getOffsetIndex k = node.getOffsetIndex key then (if k ≤ key then lnode else rnode)
        else node.lookup k := by
  refine ⟨?_, insert_valid valid room fresh lnode rnode,
    fun k => lookup_insert valid room key k _ _⟩
  unfold insert
  rw [if_neg (by rw [room]; decide)]

/-- A node of two separator keys, `10` and `20`, takes `15` into the slot of `20`. -/
theorem insert_routes_between_keys :
    ∃ node : InternalNode, node = ⟨[⟨1, .ofByte 10⟩, ⟨2, .ofByte 20⟩, ⟨3, .min⟩], 4067⟩ ∧
      Valid 4096 node ∧ node.isFull = false ∧
      (node.getPairByIndex (node.getOffsetIndex (.ofByte 15))).key ≠ .ofByte 15 ∧
      (node.insert (.ofByte 15) 4 5).2 = true ∧ Valid 4096 (node.insert (.ofByte 15) 4 5).1 ∧
      ∀ k, (node.insert (.ofByte 15) 4 5).1.lookup k =
        if node.getOffsetIndex k = node.getOffsetIndex (.ofByte 15) then
          (if k ≤ .ofByte 15 then 4 else 5)
        else node.lookup k := by
  have valid : Valid 4096 ⟨[⟨1, .ofByte 10⟩, ⟨2, .ofByte 20⟩, ⟨3, .min⟩], 4067⟩ :=
    ⟨by decide, by decide, by decide, by decide, by decide, by decide⟩
  have room :
      (InternalNode.mk [⟨1, .ofByte 10⟩, ⟨2, .ofByte 20⟩, ⟨3, .min⟩] 4067).isFull = false := by
    decide
  have fresh : ((InternalNode.mk [⟨1, .ofByte 10⟩, ⟨2, .ofByte 20⟩, ⟨3, .min⟩] 4067).getPairByIndex
      ((InternalNode.mk [⟨1, .ofByte 10⟩, ⟨2, .ofByte 20⟩, ⟨3, .min⟩] 4067).getOffsetIndex
        (.ofByte 15))).key ≠ .ofByte 15 := by
    decide
  exact ⟨_, rfl, valid, room, fresh, insert_routes valid room _ fresh 4 5⟩

/-! ## `remove` -/

/-- `make_last_pair_special` rewrites the last pair with the empty key. -/
theorem makeLastPairSpecial_pairs {node : InternalNode} {A : List InternalPair} {before : InternalPair}
    (shape : node.pairs = A ++ [before]) :
    node.makeLastPairSpecial.pairs = A ++ [⟨before.lnode, StoreKey.min⟩] := by
  simp only [makeLastPairSpecial, deletePair, insertPair, getPairByIndex, shape]
  simp

/-- The heap of `make_last_pair_special` gains the empty-key pair and loses the old one. -/
theorem makeLastPairSpecial_eq {node : InternalNode} {A : List InternalPair} {before : InternalPair}
    (shape : node.pairs = A ++ [before]) :
    node.makeLastPairSpecial =
      ⟨A ++ [⟨before.lnode, StoreKey.min⟩], node.frontmostOffset - 9 + pairSize before⟩ := by
  have pairs := makeLastPairSpecial_pairs shape
  have old : node.getPairByIndex (node.pairs.length - 1) = before := by
    rw [getPairByIndex, shape]
    simp
  rw [← pairs]
  simp only [makeLastPairSpecial, deletePair, insertPair, old]
  rfl

/-- `remove` of a key in the slot of a separator pair: that pair leaves the offsets and the
heap. -/
theorem remove_eq_of_keyed {blockSize : Nat} {node : InternalNode} (valid : Valid blockSize node)
    {key : StoreKey} {A rest : List InternalPair} {removed : InternalPair}
    (split : node.keyed = A ++ removed :: rest) (atSlot : slot node.keyed key = A.length) :
    node.remove key =
      ⟨(A ++ rest) ++ [node.pairs.getLastD default], node.frontmostOffset + pairSize removed⟩ := by
  have shape := pairs_eq_keyed_append valid.nonempty
  have erased : node.pairs.eraseIdx A.length = (A ++ rest) ++ [node.pairs.getLastD default] := by
    generalize node.pairs.getLastD default = lastPair at shape ⊢
    rw [shape, split, List.append_assoc, List.cons_append, eraseIdx_append_length, List.append_assoc]
  have removedAt : node.getPairByIndex A.length = removed := by
    rw [getPairByIndex, shape, split]
    simp
  unfold remove
  rw [getOffsetIndex_eq valid.nonempty, atSlot]
  dsimp only [deleteOffset, deletePair]
  -- the pair was not the last, so more offsets are left than its index
  rw [removedAt, if_neg (by rw [erased]; simp), erased]

/-- `remove` of a key in the slot of the last pair: the pair before it becomes the last, with
the empty key, and the heap loses its old key. -/
theorem remove_eq_of_last {blockSize : Nat} {node : InternalNode} (valid : Valid blockSize node)
    {key : StoreKey} {A : List InternalPair} {before : InternalPair}
    (split : node.keyed = A ++ [before]) (atSlot : slot node.keyed key = node.keyed.length) :
    node.remove key =
      ⟨A ++ [⟨before.lnode, StoreKey.min⟩], node.frontmostOffset + pairSize before⟩ := by
  have shape := pairs_eq_keyed_append valid.nonempty
  have erased : node.pairs.eraseIdx node.keyed.length = A ++ [before] := by
    generalize node.pairs.getLastD default = lastPair at shape
    rw [shape, List.eraseIdx_append_of_length_le (Nat.le_refl _), Nat.sub_self]
    simp [split]
  have lastAt : node.getPairByIndex node.keyed.length = node.pairs.getLastD default := by
    conv_lhs => rw [getPairByIndex, shape]
    simp
  have lastSize : pairSize (node.pairs.getLastD default) = 9 := by
    rw [pairSize, valid.special]
    rfl
  unfold remove
  rw [getOffsetIndex_eq valid.nonempty, atSlot]
  dsimp only [deleteOffset, deletePair]
  rw [lastAt, if_pos (by rw [erased, ← split]), makeLastPairSpecial_eq erased, lastSize,
    Nat.add_sub_cancel]

/-- `remove` of a key in the slot of a separator pair takes that pair out. -/
theorem remove_pairs_of_keyed {blockSize : Nat} {node : InternalNode} (valid : Valid blockSize node)
    {key : StoreKey} {A rest : List InternalPair} {removed : InternalPair}
    (split : node.keyed = A ++ removed :: rest) (atSlot : slot node.keyed key = A.length) :
    (node.remove key).pairs = (A ++ rest) ++ [node.pairs.getLastD default] := by
  rw [remove_eq_of_keyed valid split atSlot]

/-- `remove` of a key in the slot of the last pair takes it out, and the pair before it becomes
the last. -/
theorem remove_pairs_of_last {blockSize : Nat} {node : InternalNode} (valid : Valid blockSize node)
    {key : StoreKey} {A : List InternalPair} {before : InternalPair}
    (split : node.keyed = A ++ [before]) (atSlot : slot node.keyed key = node.keyed.length) :
    (node.remove key).pairs = A ++ [⟨before.lnode, StoreKey.min⟩] := by
  rw [remove_eq_of_last valid split atSlot]

/-- `remove` hands the slot of the removed pair to a neighbour: to the next pair if the removed
one has a key, and to the one before if it is the last pair, which that one then becomes. -/
theorem lookup_remove {blockSize : Nat} {node : InternalNode} (valid : Valid blockSize node)
    (two : 2 ≤ node.pairs.length) (key k : StoreKey) :
    (node.remove key).lookup k =
      if node.getOffsetIndex k = node.getOffsetIndex key then
        if node.getOffsetIndex key + 1 < node.pairs.length then
          (node.getPairByIndex (node.getOffsetIndex key + 1)).lnode
        else (node.getPairByIndex (node.getOffsetIndex key - 1)).lnode
      else node.lookup k := by
  obtain ⟨A, B, split, atSlot, -, -⟩ := exists_split_at_slot node.keyed key
  have shape := pairs_eq_keyed_append valid.nonempty
  have sorted := valid.sorted
  rw [getOffsetIndex_eq valid.nonempty, getOffsetIndex_eq valid.nonempty, lookup_eq_route valid.nonempty,
    atSlot]
  cases B with
  | cons removed rest =>
    have newShape := remove_pairs_of_keyed valid split atSlot
    rw [lookup_of_pairs_eq newShape, split, route_append, route_append]
    rw [split] at shape sorted
    have next : A.length + 1 < node.pairs.length := by
      rw [shape]
      simp
    rw [if_pos next]
    by_cases covered : ∃ pair ∈ A, k ≤ pair.key
    · rw [if_neg (Nat.ne_of_lt (slot_append_of_covered covered _))]
      exact route_of_covered covered _ _
    · rw [slot_append_of_lt (lt_of_not_covered covered), route_of_lt (lt_of_not_covered covered),
        route_of_lt (lt_of_not_covered covered)]
      by_cases inSlot : k ≤ removed.key
      · -- the keys of the removed slot are below every later key, so the next pair covers them
        rw [slot_cons_of_le inSlot, if_pos (Nat.add_zero _), getPairByIndex, shape]
        cases rest with
        | nil => simp
        | cons after later =>
          have above : removed.key < after.key :=
            List.rel_of_pairwise_cons (List.pairwise_append.mp sorted).2.1 List.mem_cons_self
          rw [route_cons_of_le (le_trans inSlot above.le)]
          simp
      · rw [slot_cons_of_lt (lt_of_not_ge inSlot), if_neg (by omega),
          route_cons_of_lt (lt_of_not_ge inSlot)]
        rfl
  | nil =>
    -- the removed pair is the last; there is a separator pair before it
    rw [List.append_nil] at split
    have keyedLength : node.keyed.length = node.pairs.length - 1 := by
      rw [keyed, List.length_dropLast]
    obtain ⟨A', before, rfl⟩ : ∃ A' before, A = A' ++ [before] := by
      have nonempty : A ≠ [] := by
        rintro rfl
        rw [split] at keyedLength
        simp at keyedLength
        omega
      exact ⟨A.dropLast, A.getLast nonempty, (List.dropLast_concat_getLast nonempty).symm⟩
    have newShape := remove_pairs_of_last valid split (by rw [atSlot, split])
    have beforeAt : node.getPairByIndex ((A' ++ [before]).length - 1) = before := by
      rw [getPairByIndex, shape, split]
      simp
    rw [split] at keyedLength
    have last : ¬((A' ++ [before]).length + 1 < node.pairs.length) := by omega
    rw [lookup_of_pairs_eq newShape, split, route_append, if_neg last, beforeAt]
    by_cases covered : ∃ pair ∈ A', k ≤ pair.key
    · have earlier := slot_append_of_covered covered [before]
      rw [if_neg (by simp only [List.length_append, List.length_singleton]; omega)]
      exact route_of_covered covered _ _
    · rw [slot_append_of_lt (lt_of_not_covered covered), route_of_lt (lt_of_not_covered covered),
        route_of_lt (lt_of_not_covered covered)]
      by_cases inSlot : k ≤ before.key
      · rw [slot_cons_of_le inSlot, if_neg (by simp), route_cons_of_le inSlot]
      · rw [slot_cons_of_lt (lt_of_not_ge inSlot), if_pos (by simp)]

/-- `remove` on a valid node of two pairs or more leaves a valid node, as the `validate` at
its end checks. -/
theorem remove_valid {blockSize : Nat} {node : InternalNode} (valid : Valid blockSize node)
    (two : 2 ≤ node.pairs.length) (key : StoreKey) : Valid blockSize (node.remove key) := by
  obtain ⟨A, B, split, atSlot, -, -⟩ := exists_split_at_slot node.keyed key
  have shape := pairs_eq_keyed_append valid.nonempty
  have filled := valid.heap_eq
  have sorted := valid.sorted
  have fits := valid.fits
  cases B with
  | cons removed rest =>
    -- a separator pair goes; the others keep their order
    rw [remove_eq_of_keyed valid split atSlot]
    rw [split] at shape sorted filled
    rw [shape] at fits
    apply valid_of_pairs_eq rfl valid.special
    · exact sorted.sublist (List.Sublist.append_left (List.sublist_cons_self removed rest) A)
    · simp only [List.length_append, List.length_cons, List.length_nil, offsetSize] at fits ⊢
      omega
    · simp only [List.map_append, List.sum_append, List.map_cons, List.sum_cons] at filled ⊢
      have lastSize : pairSize (node.pairs.getLastD default) = 9 := by
        rw [pairSize, valid.special]
        rfl
      omega
  | nil =>
    -- the last pair goes, and the separator pair before it takes its place
    rw [List.append_nil] at split
    obtain ⟨A', before, rfl⟩ : ∃ A' before, A = A' ++ [before] := by
      have nonempty : A ≠ [] := by
        rintro rfl
        have keyedLength : node.keyed.length = node.pairs.length - 1 := by
          rw [keyed, List.length_dropLast]
        rw [split] at keyedLength
        simp at keyedLength
        omega
      exact ⟨A.dropLast, A.getLast nonempty, (List.dropLast_concat_getLast nonempty).symm⟩
    rw [remove_eq_of_last valid split (by rw [atSlot, split])]
    rw [split] at shape sorted filled
    rw [shape] at fits
    apply valid_of_pairs_eq rfl rfl
    · exact sorted.sublist (List.sublist_append_left A' [before])
    · simp only [List.length_append, List.length_cons, List.length_nil, offsetSize] at fits ⊢
      omega
    · have specialSize : pairSize ⟨before.lnode, StoreKey.min⟩ = 9 := rfl
      simp only [List.map_append, List.sum_append, List.map_cons, List.sum_cons, List.map_nil,
        List.sum_nil, specialSize] at filled ⊢
      omega

/-- **`remove` on an internal node.**  On a valid node of two pairs or more, `remove` leaves a
valid node that hands the slot of the removed pair to a neighbour: to the next pair if the
removed one has a key, and to the one before if it is the last pair, which that one then
becomes; every other key goes where it went. -/
theorem remove_routes {blockSize : Nat} {node : InternalNode} (valid : Valid blockSize node)
    (two : 2 ≤ node.pairs.length) (key : StoreKey) :
    Valid blockSize (node.remove key) ∧
      ∀ k, (node.remove key).lookup k =
        if node.getOffsetIndex k = node.getOffsetIndex key then
          if node.getOffsetIndex key + 1 < node.pairs.length then
            (node.getPairByIndex (node.getOffsetIndex key + 1)).lnode
          else (node.getPairByIndex (node.getOffsetIndex key - 1)).lnode
        else node.lookup k :=
  ⟨remove_valid valid two key, lookup_remove valid two key⟩

/-- Removing the key above every separator key of a node of keys `10` and `20` takes out its
last pair: `20`'s pair becomes the last, and its child takes the keys above `20`. -/
theorem remove_routes_past_last_key :
    ∃ node : InternalNode, node = ⟨[⟨1, .ofByte 10⟩, ⟨2, .ofByte 20⟩, ⟨3, .min⟩], 4067⟩ ∧
      Valid 4096 node ∧ 2 ≤ node.pairs.length ∧ Valid 4096 (node.remove (.ofByte 30)) ∧
      ∀ k, (node.remove (.ofByte 30)).lookup k =
        if node.getOffsetIndex k = node.getOffsetIndex (.ofByte 30) then
          if node.getOffsetIndex (.ofByte 30) + 1 < node.pairs.length then
            (node.getPairByIndex (node.getOffsetIndex (.ofByte 30) + 1)).lnode
          else (node.getPairByIndex (node.getOffsetIndex (.ofByte 30) - 1)).lnode
        else node.lookup k := by
  have valid : Valid 4096 ⟨[⟨1, .ofByte 10⟩, ⟨2, .ofByte 20⟩, ⟨3, .min⟩], 4067⟩ :=
    ⟨by decide, by decide, by decide, by decide, by decide, by decide⟩
  have two :
      2 ≤ (InternalNode.mk [⟨1, .ofByte 10⟩, ⟨2, .ofByte 20⟩, ⟨3, .min⟩] 4067).pairs.length := by
    decide
  exact ⟨_, rfl, valid, two, remove_routes valid two _⟩

/-! ## `split` -/

theorem foldl_deletePair (pairs : List InternalPair) (node : InternalNode) :
    pairs.foldl deletePair node =
      { node with frontmostOffset := node.frontmostOffset + (pairs.map pairSize).sum } := by
  induction pairs generalizing node with
  | nil => rfl
  | cons pair rest ih =>
    rw [List.foldl_cons, ih]
    simp only [deletePair, List.map_cons, List.sum_cons, Nat.add_assoc]

theorem foldl_insertPair (pairs : List InternalPair) (node : InternalNode) :
    pairs.foldl insertPair node =
      { node with frontmostOffset := node.frontmostOffset - (pairs.map pairSize).sum } := by
  induction pairs generalizing node with
  | nil => rfl
  | cons pair rest ih =>
    rw [List.foldl_cons, ih]
    simp only [insertPair, List.map_cons, List.sum_cons, Nat.sub_sub]

/-- The median loop stops once the bytes counted reach half. -/
theorem medianIndex_le :
    ∀ (pairs : List InternalPair) (firstPairs half count : Nat),
      half ≤ firstPairs + ((pairs.take count).map pairSize).sum →
        medianIndex pairs firstPairs half ≤ count
  | [], _, _, _, _ => Nat.zero_le _
  | pair :: rest, firstPairs, half, count, enough => by
    unfold medianIndex
    split
    next below =>
      cases count with
      | zero => simp at enough; omega
      | succ count =>
        have later := medianIndex_le rest (firstPairs + pairSize pair) half count
          (by simpa [Nat.add_assoc] using enough)
        omega
    next => exact Nat.zero_le _

theorem medianIndex_pos {pair : InternalPair} {rest : List InternalPair} {firstPairs half : Nat}
    (below : firstPairs < half) : 0 < medianIndex (pair :: rest) firstPairs half := by
  unfold medianIndex
  rw [if_pos below]
  exact Nat.succ_pos _

/-- Every pair takes at least the child and the size byte. -/
theorem pairSize_ge (pair : InternalPair) : 9 ≤ pairSize pair :=
  Nat.le_add_right 9 _

theorem pairSize_special (lnode : BlockId) : pairSize ⟨lnode, StoreKey.min⟩ = 9 := rfl

/-- `split` of a valid node with at least two pairs cuts its separator pairs at a pair `median`
before the last: `node` keeps those up to it, with `median` now the last pair, and `rnode`
gets the rest and the last pair. -/
theorem split_shape {blockSize : Nat} {node : InternalNode} (valid : Valid blockSize node)
    (two : 2 ≤ node.pairs.length) :
    ∃ A median R, node.keyed = A ++ median :: R ∧
      (node.split blockSize).1 =
        ⟨A ++ [⟨median.lnode, StoreKey.min⟩], node.frontmostOffset +
          ((R ++ [node.pairs.getLastD default]).map pairSize).sum - 9 + pairSize median⟩ ∧
      (node.split blockSize).2.1 =
        ⟨R ++ [node.pairs.getLastD default],
          blockSize - ((R ++ [node.pairs.getLastD default]).map pairSize).sum⟩ ∧
      (node.split blockSize).2.2 = median.key := by
  have shape := pairs_eq_keyed_append valid.nonempty
  generalize node.pairs.getLastD default = lastPair at shape ⊢
  have special : lastPair.key = StoreKey.min := by
    have := valid.special
    rw [shape, List.getLastD_concat] at this
    exact this
  have keyedLength : 1 ≤ node.keyed.length := by
    have := congrArg List.length shape
    simp at this
    omega
  -- the heap is the separator pairs and the last pair, of 9 bytes
  have heap : blockSize - node.frontmostOffset = (node.keyed.map pairSize).sum + 9 := by
    rw [valid.heap, shape, List.map_append, List.sum_append]
    simp [pairSize, pairSizeWithKeySize, special, StoreKey.min]
  obtain ⟨first, later, firstEq⟩ := List.exists_cons_of_length_pos keyedLength
  have keyedHeap : 9 ≤ (node.keyed.map pairSize).sum := by
    rw [firstEq, List.map_cons, List.sum_cons]
    have := pairSize_ge first
    omega
  -- the median index lies among the separator pairs, after the first
  have atMost : medianIndex node.pairs 0 ((blockSize - node.frontmostOffset) / 2) ≤ node.keyed.length := by
    apply medianIndex_le
    rw [shape, List.take_left' rfl, heap]
    omega
  have atLeast : 0 < medianIndex node.pairs 0 ((blockSize - node.frontmostOffset) / 2) := by
    rw [shape, firstEq, List.cons_append]
    exact medianIndex_pos (by omega)
  have sorted := valid.sorted
  unfold split
  dsimp only
  generalize medianIndex node.pairs 0 ((blockSize - node.frontmostOffset) / 2) = m at atMost atLeast ⊢
  -- the median is the last of the first `m` separator pairs
  obtain ⟨A, median, takeEq⟩ : ∃ A median, node.keyed.take m = A ++ [median] := by
    have nonempty : node.keyed.take m ≠ [] := by
      intro empty
      have := congrArg List.length empty
      rw [List.length_take_of_le atMost] at this
      simp at this
      omega
    exact ⟨_, _, (List.dropLast_concat_getLast nonempty).symm⟩
  have lengthA : A.length + 1 = m := by
    have := congrArg List.length takeEq
    rw [List.length_take_of_le atMost] at this
    simp at this
    omega
  have keyedEq : node.keyed = A ++ median :: node.keyed.drop m :=
    calc node.keyed = node.keyed.take m ++ node.keyed.drop m := (List.take_append_drop m _).symm
      _ = A ++ median :: node.keyed.drop m := by
        rw [takeEq, List.append_assoc, List.singleton_append]
  have taken : node.pairs.take m = A ++ [median] := by
    rw [shape, List.take_append_of_le_length atMost, takeEq]
  have dropped : node.pairs.drop m = node.keyed.drop m ++ [lastPair] := by
    rw [shape, List.drop_append_of_le_length atMost]
  have medianAt : node.getPairByIndex (m - 1) = median := by
    rw [getPairByIndex, shape, keyedEq, ← lengthA, Nat.add_sub_cancel]
    simp
  have restSorted : (node.keyed.drop m).Pairwise fun a b => decide (a.key ≤ b.key) = true :=
    (sorted.sublist (List.drop_sublist _ _)).imp fun below => by simpa using le_of_lt below
  refine ⟨A, median, node.keyed.drop m, keyedEq, ?_, ?_, by rw [medianAt]⟩
  · rw [dropped, foldl_deletePair, makeLastPairSpecial_eq (by exact taken)]
  · simp only [initFrom, foldl_insertPair, dropped, init]
    simp [List.mergeSort_of_pairwise restSorted]


/-- `split` of a valid node with at least two pairs leaves two valid nodes, neither empty:
`node` routes the keys up to the median as it did, and `rnode` the keys above it. -/
theorem split_routes {blockSize : Nat} {node : InternalNode} (valid : Valid blockSize node)
    (two : 2 ≤ node.pairs.length) :
    Valid blockSize (node.split blockSize).1 ∧ Valid blockSize (node.split blockSize).2.1 ∧
      (∀ k ≤ (node.split blockSize).2.2, (node.split blockSize).1.lookup k = node.lookup k) ∧
      ∀ k, (node.split blockSize).2.2 < k → (node.split blockSize).2.1.lookup k = node.lookup k := by
  obtain ⟨A, median, R, keyedEq, leftEq, rightEq, medianEq⟩ := split_shape valid two
  have shape := pairs_eq_keyed_append valid.nonempty
  have special : (node.pairs.getLastD default).key = StoreKey.min := valid.special
  have fits := valid.fits
  have filled := valid.front_add_heap
  have sorted := valid.sorted
  have route := lookup_eq_route valid.nonempty
  rw [leftEq, rightEq, medianEq]
  rw [keyedEq] at shape sorted
  simp only [keyedEq, lastChild] at route
  generalize node.pairs.getLastD default = lastPair at shape special route ⊢
  rw [shape] at fits filled
  simp only [List.length_append, List.length_cons, List.map_append, List.map_cons, List.sum_append,
    List.sum_cons, List.map_nil, List.sum_nil, List.length_nil] at fits filled
  have medianSize := pairSize_ge median
  have lastSize := pairSize_ge lastPair
  have below : ∀ pair ∈ A, pair.key < median.key :=
    fun pair member => (List.pairwise_append.mp sorted).2.2 pair member median List.mem_cons_self
  refine ⟨valid_of_pairs_eq rfl rfl (sorted.sublist (List.sublist_append_left _ _)) ?_ ?_,
    valid_of_pairs_eq rfl special ((List.pairwise_append.mp sorted).2.1.sublist (List.sublist_cons_self _ _))
      ?_ ?_, fun k upTo => ?_, fun k above => ?_⟩
  · simp only [headerSize, offsetSize, List.map_append, List.sum_append, List.map_cons,
      List.sum_cons, List.map_nil, List.sum_nil] at fits ⊢
    omega
  · simp only [pairSize_special, List.map_append, List.sum_append, List.map_cons, List.sum_cons,
      List.map_nil, List.sum_nil]
    omega
  · simp only [headerSize, offsetSize, List.map_append, List.sum_append, List.map_cons, List.sum_cons,
      List.map_nil, List.sum_nil] at fits ⊢
    omega
  · simp only [List.map_append, List.sum_append, List.map_cons, List.sum_cons, List.map_nil,
      List.sum_nil]
    omega
  · rw [lookup_of_pairs_eq rfl, route, route_append, route_cons_of_le upTo]
  · rw [lookup_of_pairs_eq rfl, route, route_append, route_of_lt fun pair member => (below pair member).trans above,
      route_cons_of_lt above]

/-- A node of keys `10` and `20` in a block of 4096 bytes splits at its median. -/
theorem split_routes_at_median :
    ∃ node : InternalNode, node = ⟨[⟨1, .ofByte 10⟩, ⟨2, .ofByte 20⟩, ⟨3, .min⟩], 4067⟩ ∧
      Valid 4096 node ∧ 2 ≤ node.pairs.length ∧
      Valid 4096 (node.split 4096).1 ∧ Valid 4096 (node.split 4096).2.1 ∧
      (∀ k ≤ (node.split 4096).2.2, (node.split 4096).1.lookup k = node.lookup k) ∧
      ∀ k, (node.split 4096).2.2 < k → (node.split 4096).2.1.lookup k = node.lookup k := by
  have valid : Valid 4096 ⟨[⟨1, .ofByte 10⟩, ⟨2, .ofByte 20⟩, ⟨3, .min⟩], 4067⟩ :=
    ⟨by decide, by decide, by decide, by decide, by decide, by decide⟩
  have two :
      2 ≤ (InternalNode.mk [⟨1, .ofByte 10⟩, ⟨2, .ofByte 20⟩, ⟨3, .min⟩] 4067).pairs.length := by
    decide
  exact ⟨_, rfl, valid, two, split_routes valid two⟩

/-! ## `merge` -/

/-- `merge` of a valid node whose `guarantee` holds: the separator pairs of `node`, its last
child with the key from the parent, then the pairs of `rnode`. -/
theorem merge_eq {blockSize : Nat} {node rnode parent : InternalNode} (valid : Valid blockSize node)
    (fits : headerSize + (node.pairs.length + rnode.pairs.length) * offsetSize +
      (blockSize - node.frontmostOffset) + (blockSize - rnode.frontmostOffset) +
      (keyFromParent parent node).contents.length < blockSize) :
    node.merge blockSize rnode parent =
      some ⟨node.keyed ++ [⟨node.lastChild, keyFromParent parent node⟩] ++ rnode.pairs,
        rnode.frontmostOffset - (node.keyed.map pairSize).sum -
          pairSize ⟨node.lastChild, keyFromParent parent node⟩⟩ := by
  have shape := pairs_eq_keyed_append valid.nonempty
  have allButLast : node.pairs.take (node.pairs.length - 1) = node.keyed := by
    rw [shape]
    exact List.take_left' (by simp)
  have lastAt : node.getPairByIndex (node.pairs.length - 1) = node.pairs.getLastD default := by
    conv_lhs => rw [getPairByIndex, shape]
    simp
  unfold merge
  rw [if_pos fits]
  simp only [allButLast, lastAt, foldl_insertPair, insertPair, lastChild, Nat.sub_sub]

/-- `merge` of two valid nodes that `is_mergable` lets through, with `node` first: the merged
`rnode` routes the keys up to the key from the parent as `node` did and the others as `rnode`
did, and with the separator keys of `node` below the key from the parent and those of `rnode`
above it, it is valid. -/
theorem merge_routes {blockSize : Nat} {node rnode parent : InternalNode}
    (validNode : Valid blockSize node) (validRight : Valid blockSize rnode)
    (mergable : isMergable blockSize node rnode parent = true) (first : nodecmp node rnode < 0)
    (below : ∀ pair ∈ node.keyed, pair.key < keyFromParent parent node)
    (above : ∀ pair ∈ rnode.keyed, keyFromParent parent node < pair.key) :
    ∃ merged, node.merge blockSize rnode parent = some merged ∧ Valid blockSize merged ∧
      (∀ k ≤ keyFromParent parent node, merged.lookup k = node.lookup k) ∧
      ∀ k, keyFromParent parent node < k → merged.lookup k = rnode.lookup k := by
  have fits : headerSize + (node.pairs.length + rnode.pairs.length) * offsetSize +
      (blockSize - node.frontmostOffset) + (blockSize - rnode.frontmostOffset) +
      (keyFromParent parent node).contents.length < blockSize := by
    simp only [isMergable, if_pos first, decide_eq_true_eq] at mergable
    simp only [headerSize, offsetSize, pairSizeWithKeySize, internalEpsilon] at mergable ⊢
    omega
  have rightShape := pairs_eq_keyed_append validRight.nonempty
  -- the merged node: the pairs of both around the key from the parent, in order
  obtain ⟨merged, merged_eq, mergedShape, mergedFront⟩ : ∃ merged,
      node.merge blockSize rnode parent = some merged ∧
      merged.pairs = (node.keyed ++ ⟨node.lastChild, keyFromParent parent node⟩ :: rnode.keyed) ++
        [rnode.pairs.getLastD default] ∧
      merged.frontmostOffset = rnode.frontmostOffset - (node.keyed.map pairSize).sum -
        pairSize ⟨node.lastChild, keyFromParent parent node⟩ := by
    refine ⟨_, merge_eq validNode fits, ?_, rfl⟩
    conv_lhs => rw [rightShape]
    simp
  -- the sizes of both nodes, in bytes
  have leftHeap := validNode.heap_eq
  have rightHeap := validRight.heap_eq
  have separator : (keyFromParent parent node).contents.length ≤ maxKeySize :=
    (keyFromParent parent node).size_le
  rw [validNode.length_eq, validRight.length_eq] at fits
  simp only [headerSize, offsetSize] at fits
  have separatorKey : ({ lnode := node.lastChild, key := keyFromParent parent node } :
      InternalPair).key = keyFromParent parent node := rfl
  refine ⟨merged, merged_eq, ?_, fun k upTo => ?_, fun k beyond => ?_⟩
  · refine valid_of_pairs_eq mergedShape validRight.special ?_ ?_ ?_
    · refine List.pairwise_append.mpr
        ⟨validNode.sorted, List.pairwise_cons.mpr ⟨above, validRight.sorted⟩, ?_⟩
      intro a member b later
      rcases List.mem_cons.mp later with rfl | later
      · exact below a member
      · exact (below a member).trans (above b later)
    · simp only [mergedFront, headerSize, offsetSize, pairSize, pairSizeWithKeySize,
        List.length_append, List.length_cons]
      omega
    · have lastSize : pairSize (rnode.pairs.getLastD default) = 9 := by
        rw [pairSize, validRight.special]
        rfl
      simp only [mergedFront, lastSize, List.map_append, List.map_cons, List.sum_append,
        List.sum_cons]
      simp only [pairSize, pairSizeWithKeySize] at leftHeap rightHeap ⊢
      omega
  · rw [lookup_of_pairs_eq mergedShape, lookup_eq_route validNode.nonempty, route_append,
      route_cons_of_le (separatorKey ▸ upTo)]
  · rw [lookup_of_pairs_eq mergedShape, lookup_eq_route validRight.nonempty, route_append,
      route_of_lt fun pair member => (below pair member).trans beyond,
      route_cons_of_lt (separatorKey ▸ beyond)]
    rfl

/-- Two nodes of one key each, `10` and `30`, below a parent whose key `20` separates them,
merge into one node of keys `10` and `20` and `30`. -/
theorem merge_routes_around_parent_key :
    ∃ node rnode parent : InternalNode, node = ⟨[⟨1, .ofByte 10⟩, ⟨2, .min⟩], 4077⟩ ∧
      rnode = ⟨[⟨3, .ofByte 30⟩, ⟨4, .min⟩], 4077⟩ ∧ parent = ⟨[⟨5, .ofByte 20⟩, ⟨6, .min⟩], 4077⟩ ∧
      Valid 4096 node ∧ Valid 4096 rnode ∧ isMergable 4096 node rnode parent = true ∧
      nodecmp node rnode < 0 ∧ (∀ pair ∈ node.keyed, pair.key < keyFromParent parent node) ∧
      (∀ pair ∈ rnode.keyed, keyFromParent parent node < pair.key) ∧
      ∃ merged, node.merge 4096 rnode parent = some merged ∧ Valid 4096 merged ∧
        (∀ k ≤ keyFromParent parent node, merged.lookup k = node.lookup k) ∧
        ∀ k, keyFromParent parent node < k → merged.lookup k = rnode.lookup k := by
  have validNode : Valid 4096 ⟨[⟨1, .ofByte 10⟩, ⟨2, .min⟩], 4077⟩ :=
    ⟨by decide, by decide, by decide, by decide, by decide, by decide⟩
  have validRight : Valid 4096 ⟨[⟨3, .ofByte 30⟩, ⟨4, .min⟩], 4077⟩ :=
    ⟨by decide, by decide, by decide, by decide, by decide, by decide⟩
  have mergable : isMergable 4096 ⟨[⟨1, .ofByte 10⟩, ⟨2, .min⟩], 4077⟩
      ⟨[⟨3, .ofByte 30⟩, ⟨4, .min⟩], 4077⟩ ⟨[⟨5, .ofByte 20⟩, ⟨6, .min⟩], 4077⟩ = true := by
    decide
  have first :
      nodecmp ⟨[⟨1, .ofByte 10⟩, ⟨2, .min⟩], 4077⟩ ⟨[⟨3, .ofByte 30⟩, ⟨4, .min⟩], 4077⟩ < 0 := by
    decide
  have below : ∀ pair ∈ (InternalNode.mk [⟨1, .ofByte 10⟩, ⟨2, .min⟩] 4077).keyed,
      pair.key < keyFromParent ⟨[⟨5, .ofByte 20⟩, ⟨6, .min⟩], 4077⟩
        ⟨[⟨1, .ofByte 10⟩, ⟨2, .min⟩], 4077⟩ := by
    decide
  have above : ∀ pair ∈ (InternalNode.mk [⟨3, .ofByte 30⟩, ⟨4, .min⟩] 4077).keyed,
      keyFromParent ⟨[⟨5, .ofByte 20⟩, ⟨6, .min⟩], 4077⟩ ⟨[⟨1, .ofByte 10⟩, ⟨2, .min⟩], 4077⟩ <
        pair.key := by
    decide
  exact ⟨_, _, _, rfl, rfl, rfl, validNode, validRight, mergable, first, below, above,
    merge_routes validNode validRight mergable first below above⟩

end InternalNode

end Btree
end RethinkDB
