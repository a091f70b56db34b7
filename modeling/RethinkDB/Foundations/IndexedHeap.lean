import Mathlib

/-!
# Binary heaps kept by swaps

A binary heap on a list: position `i > 0` has the parent `(i - 1) / 2`, and a heap is `Ordered`
when no element has higher priority than its parent.  Priority is any strict weak order
`higher`; elements of equal priority may sit anywhere relative to each other.

A heap is repaired one swap at a time.  Bubbling an element towards the root keeps `UpInv`:
every parent and child are in order except the element and its parent, and the element's
children are in order with its parent.  Bubbling towards the leaves keeps `DownInv`, the same
with the element's edges to its children left open.  A heap whose element at `k` was replaced,
or whose element at `k` changed its priority, satisfies `AroundInv`, both kinds of edge at `k`
left open; one swap towards the root turns it into `UpInv`, and no swap into `DownInv`.  In an
ordered heap the root has the highest priority (`Ordered.not_higher_root`).
-/

namespace IndexedHeap

variable {α : Type*}

/-- The parent of position `i > 0`. -/
def parent (i : Nat) : Nat := (i - 1) / 2

/-- `c` is a child of `p`: position `0` is no position's child, although `parent 0 = 0`. -/
def IsChild (c p : Nat) : Prop := 0 < c ∧ parent c = p

theorem parent_lt {i : Nat} (pos : 0 < i) : parent i < i := by
  unfold parent
  omega

theorem IsChild.lt {c p : Nat} (child : IsChild c p) : p < c := by
  rw [← child.2]
  exact parent_lt child.1

/-- Swapping the elements at positions `i` and `j`, when both are positions of the list. -/
def swapAt (xs : List α) (i j : Nat) : List α :=
  match xs[i]?, xs[j]? with
  | some a, some b => (xs.set i b).set j a
  | _, _ => xs

/-! ## Swaps -/

section Swap

variable {xs : List α} {i j : Nat}

@[simp] theorem length_swapAt : (swapAt xs i j).length = xs.length := by
  unfold swapAt
  split <;> simp

/-- After a swap, position `n` holds what position `swap i j n` held. -/
theorem getElem?_swapAt (hi : i < xs.length) (hj : j < xs.length) (n : Nat) :
    (swapAt xs i j)[n]? = xs[Equiv.swap i j n]? := by
  unfold swapAt
  rw [List.getElem?_eq_getElem hi, List.getElem?_eq_getElem hj]
  simp only [List.getElem?_set, List.length_set, Equiv.swap_apply_def]
  by_cases atJ : n = j
  · subst atJ
    by_cases atI : n = i
    · subst atI
      simp [hi]
    · simp [hj, atI]
  · by_cases atI : n = i
    · subst atI
      simp [hi, Ne.symm atJ]
    · simp [Ne.symm atJ, Ne.symm atI, atI, atJ]

theorem swapAt_left (hi : i < xs.length) (hj : j < xs.length) :
    (swapAt xs i j)[i]? = xs[j]? := by
  rw [getElem?_swapAt hi hj, Equiv.swap_apply_left]

theorem swapAt_right (hi : i < xs.length) (hj : j < xs.length) :
    (swapAt xs i j)[j]? = xs[i]? := by
  rw [getElem?_swapAt hi hj, Equiv.swap_apply_right]

theorem swapAt_other (hi : i < xs.length) (hj : j < xs.length) {n : Nat} (ni : n ≠ i)
    (nj : n ≠ j) : (swapAt xs i j)[n]? = xs[n]? := by
  rw [getElem?_swapAt hi hj, Equiv.swap_apply_of_ne_of_ne ni nj]

/-- Writing `b` over the `a` at position `k` trades one `a` for one `b`. -/
theorem perm_set [DecidableEq α] {k : Nat} {a b : α} (atK : xs[k]? = some a) :
    (xs.set k b).Perm (b :: xs.erase a) := by
  obtain ⟨lt, rfl⟩ := List.getElem?_eq_some_iff.mp atK
  rw [List.perm_iff_count]
  intro x
  rw [List.count_set lt, List.count_cons, List.count_erase]

open List in
/-- A swap permutes the elements. -/
theorem perm_swapAt [DecidableEq α] : (swapAt xs i j).Perm xs := by
  unfold swapAt
  split
  · rename_i a b atI atJ
    have hi : i < xs.length := (List.getElem?_eq_some_iff.mp atI).1
    -- after the first write, position `j` holds `b` whether or not `i = j`
    have atJ' : (xs.set i b)[j]? = some b := by
      rw [List.getElem?_set]
      split_ifs with same
      · rfl
      · exact atJ
    calc ((xs.set i b).set j a).Perm (a :: (xs.set i b).erase b) := perm_set atJ'
      _ ~ a :: (b :: xs.erase a).erase b := ((perm_set atI).erase b).cons a
      _ = a :: xs.erase a := by rw [List.erase_cons_head]
      _ ~ xs := (List.perm_cons_erase (List.mem_of_getElem? atI)).symm
  · exact List.Perm.refl xs

theorem getElem?_of_dropLast {n : Nat} {x : α} (atN : xs.dropLast[n]? = some x) :
    xs[n]? = some x := by
  rw [List.getElem?_dropLast] at atN
  by_cases inRange : n < xs.length - 1
  · rwa [if_pos inRange] at atN
  · rw [if_neg inRange] at atN
    cases atN

open List in
/-- Dropping the last element takes out one copy of it. -/
theorem perm_dropLast [DecidableEq α] {r : α} (last : xs.getLast? = some r) :
    xs.dropLast.Perm (xs.erase r) := by
  have split : xs = xs.dropLast ++ [r] := by
    rw [List.getLast?_eq_some_iff] at last
    obtain ⟨pre, rfl⟩ := last
    rw [List.dropLast_concat]
  calc xs.dropLast.Perm ((r :: xs.dropLast).erase r) := by rw [List.erase_cons_head]
    _ ~ (xs.dropLast ++ [r]).erase r := (List.perm_append_singleton r _).symm.erase r
    _ = xs.erase r := by rw [← split]

open List in
/-- Moving the last element `r` over the `x` at position `k` and dropping the last position
takes out one copy of `x`. -/
theorem perm_dropLast_set [DecidableEq α] {k : Nat} {x r : α} (atK : xs[k]? = some x)
    (notLast : k + 1 < xs.length) (last : xs.getLast? = some r) :
    (xs.set k r).dropLast.Perm (xs.erase x) := by
  rw [List.getLast?_eq_some_iff] at last
  obtain ⟨pre, rfl⟩ := last
  have inPre : k < pre.length := by simpa using notLast
  have atK' : pre[k]? = some x := by rwa [List.getElem?_append_left inPre] at atK
  rw [List.set_append, if_pos inPre, List.dropLast_concat,
    List.erase_append_left _ (List.mem_of_getElem? atK')]
  calc (pre.set k r).Perm (r :: pre.erase x) := perm_set atK'
    _ ~ pre.erase x ++ [r] := (List.perm_append_singleton r _).symm

end Swap

/-! ## Heap order -/

section Order

variable (higher : α → α → Prop)

/-- No element has higher priority than its parent. -/
def Ordered (xs : List α) : Prop :=
  ∀ i x y, 0 < i → xs[i]? = some x → xs[parent i]? = some y → ¬higher x y

/-- What bubbling the element at `k` towards the root keeps: every parent and child are in order
except `k` and its parent, and `k`'s children are in order with `k`'s parent. -/
structure UpInv (xs : List α) (k : Nat) : Prop where
  except : ∀ i x y, 0 < i → i ≠ k → xs[i]? = some x → xs[parent i]? = some y → ¬higher x y
  grand : 0 < k → ∀ c x y, IsChild c k → xs[c]? = some x → xs[parent k]? = some y →
    ¬higher x y

/-- What bubbling the element at `k` towards the leaves keeps: every parent and child are in
order except `k` and its children, and `k`'s children are in order with `k`'s parent. -/
structure DownInv (xs : List α) (k : Nat) : Prop where
  except : ∀ i x y, 0 < i → parent i ≠ k → xs[i]? = some x → xs[parent i]? = some y →
    ¬higher x y
  grand : 0 < k → ∀ c x y, IsChild c k → xs[c]? = some x → xs[parent k]? = some y →
    ¬higher x y

/-- A heap with the element at `k` replaced: every parent and child are in order except at `k`,
and `k`'s children are in order with `k`'s parent. -/
structure AroundInv (xs : List α) (k : Nat) : Prop where
  except : ∀ i x y, 0 < i → i ≠ k → parent i ≠ k → xs[i]? = some x → xs[parent i]? = some y →
    ¬higher x y
  grand : 0 < k → ∀ c x y, IsChild c k → xs[c]? = some x → xs[parent k]? = some y →
    ¬higher x y

/-- `pick` below: whether the element at `a` has higher priority than the element at `b`. -/
def higherAt [DecidableRel higher] (xs : List α) (a b : Nat) : Bool :=
  match xs[a]?, xs[b]? with
  | some x, some y => decide (higher x y)
  | _, _ => false

/-- The `winner` of one comparison: `candidate` when it is a position holding an element of
higher priority than the one at `winner`. -/
def pick [DecidableRel higher] (xs : List α) (winner candidate : Nat) : Nat :=
  if candidate < xs.length ∧ higherAt higher xs candidate winner = true then candidate
  else winner

end Order

/-! ## Strict weak orders -/

section WeakOrder

variable {higher : α → α → Prop} [IsStrictWeakOrder α higher] {a b c : α}

/-- Not having higher priority is transitive. -/
theorem not_higher_trans (ab : ¬higher a b) (bc : ¬higher b c) : ¬higher a c := by
  intro ac
  by_cases ba : higher b a
  · exact bc (trans_of higher ba ac)
  · by_cases cb : higher c b
    · exact ab (trans_of higher ac cb)
    · exact (IsStrictWeakOrder.incomp_trans a b c ⟨ab, ba⟩ ⟨bc, cb⟩).1 ac

/-- An element below something `e` is above is not above `e`. -/
theorem not_higher_of_higher (above : higher e b) (notAbove : ¬higher c b) : ¬higher c e :=
  fun ce => notAbove (trans_of higher ce above)

/-- Elements of equal priority compare alike with every element. -/
theorem higher_left_iff_of_incomp (ab : ¬higher a b) (ba : ¬higher b a) :
    higher a c ↔ higher b c := by
  constructor
  · intro ac
    by_contra bc
    exact not_higher_trans ab bc ac
  · intro bc
    by_contra ac
    exact not_higher_trans ba ac bc

theorem higher_right_iff_of_incomp (ab : ¬higher a b) (ba : ¬higher b a) :
    higher c a ↔ higher c b := by
  constructor
  · intro ca
    by_contra cb
    exact not_higher_trans cb ba ca
  · intro cb
    by_contra ca
    exact not_higher_trans ca ab cb

end WeakOrder

/-! ## Comparing positions -/

section Compare

variable {higher : α → α → Prop} [DecidableRel higher] {xs : List α} {a b : Nat} {x y : α}

theorem higher_of_higherAt (above : higherAt higher xs a b = true) (atA : xs[a]? = some x)
    (atB : xs[b]? = some y) : higher x y := by
  unfold higherAt at above
  rw [atA, atB] at above
  exact of_decide_eq_true above

theorem not_higher_of_higherAt (notAbove : higherAt higher xs a b = false)
    (atA : xs[a]? = some x) (atB : xs[b]? = some y) : ¬higher x y := by
  unfold higherAt at notAbove
  rw [atA, atB] at notAbove
  exact of_decide_eq_false notAbove

end Compare

/-- The position among `k` and its children `2k + 1`, `2k + 2` that holds the highest priority,
the earliest of them on a tie: `k` is kept unless a child beats it. -/
def best (higher : α → α → Prop) [DecidableRel higher] (xs : List α) (k : Nat) : Nat :=
  pick higher xs (pick higher xs k (2 * k + 1)) (2 * k + 2)

theorem isChild_iff {c k : Nat} : IsChild c k ↔ c = 2 * k + 1 ∨ c = 2 * k + 2 := by
  unfold IsChild parent
  omega

/-! ## The winner of a comparison -/

section Pick

variable {higher : α → α → Prop} [DecidableRel higher] {xs : List α} {w c k : Nat} {a b : α}

theorem pick_eq_or : pick higher xs w c = w ∨ pick higher xs w c = c := by
  unfold pick
  split_ifs
  · exact Or.inr rfl
  · exact Or.inl rfl

theorem pick_lt (lt : w < xs.length) : pick higher xs w c < xs.length := by
  unfold pick
  split_ifs with better
  · exact better.1
  · exact lt

theorem best_lt (lt : k < xs.length) : best higher xs k < xs.length :=
  pick_lt (pick_lt lt)

/-- The winner is `k` itself or one of its children. -/
theorem best_eq_or_isChild : best higher xs k = k ∨ IsChild (best higher xs k) k := by
  unfold best
  rcases @pick_eq_or _ higher _ xs (pick higher xs k (2 * k + 1)) (2 * k + 2) with outer | outer
  · rw [outer]
    rcases @pick_eq_or _ higher _ xs k (2 * k + 1) with inner | inner
    · exact Or.inl inner
    · exact Or.inr (isChild_iff.mpr (Or.inl inner))
  · exact Or.inr (isChild_iff.mpr (Or.inr outer))

/-- A winner other than `winner` beats it. -/
theorem higher_pick (moved : pick higher xs w c ≠ w) (atW : xs[w]? = some a)
    (atP : xs[pick higher xs w c]? = some b) : higher b a := by
  unfold pick at moved atP
  split_ifs at moved atP with better
  · exact higher_of_higherAt better.2 atP atW
  · exact absurd rfl moved

theorem exists_getElem?_pick (lt : w < xs.length) :
    ∃ m, xs[pick higher xs w c]? = some m :=
  ⟨_, List.getElem?_eq_getElem (pick_lt lt)⟩

variable [IsStrictWeakOrder α higher]

/-- What was at `winner` does not beat the winner of the comparison. -/
theorem not_higher_pick_left (atW : xs[w]? = some a) (atP : xs[pick higher xs w c]? = some b) :
    ¬higher a b := by
  unfold pick at atP
  split_ifs at atP with better
  · exact asymm_of higher (higher_of_higherAt better.2 atP atW)
  · rw [atW] at atP
    cases atP
    exact irrefl_of higher a

/-- The candidate does not beat the winner of the comparison. -/
theorem not_higher_pick_right (atC : xs[c]? = some a) (atP : xs[pick higher xs w c]? = some b) :
    ¬higher a b := by
  unfold pick at atP
  split_ifs at atP with better
  · rw [atC] at atP
    cases atP
    exact irrefl_of higher a
  · have inRange : c < xs.length := (List.getElem?_eq_some_iff.mp atC).1
    have notAbove : higherAt higher xs c w = false :=
      Bool.eq_false_iff.mpr fun above => better ⟨inRange, above⟩
    exact not_higher_of_higherAt notAbove atC atP

theorem not_higher_best_self (atK : xs[k]? = some a) (atB : xs[best higher xs k]? = some b) :
    ¬higher a b := by
  obtain ⟨m, atM⟩ :=
    @exists_getElem?_pick _ higher _ xs k (2 * k + 1) (List.getElem?_eq_some_iff.mp atK).1
  exact not_higher_trans (not_higher_pick_left atK atM) (not_higher_pick_left atM atB)

theorem not_higher_best_child (child : IsChild c k) (atC : xs[c]? = some a)
    (atB : xs[best higher xs k]? = some b) : ¬higher a b := by
  have lt : k < xs.length := Nat.lt_trans child.lt (List.getElem?_eq_some_iff.mp atC).1
  obtain ⟨m, atM⟩ := @exists_getElem?_pick _ higher _ xs k (2 * k + 1) lt
  rcases isChild_iff.mp child with rfl | rfl
  · exact not_higher_trans (not_higher_pick_right atC atM) (not_higher_pick_left atM atB)
  · exact not_higher_pick_right atC atB

/-- A winner other than `k` beats the element at `k`. -/
theorem higher_best (moved : best higher xs k ≠ k) (atK : xs[k]? = some a)
    (atB : xs[best higher xs k]? = some b) : higher b a := by
  obtain ⟨m, atM⟩ :=
    @exists_getElem?_pick _ higher _ xs k (2 * k + 1) (List.getElem?_eq_some_iff.mp atK).1
  unfold best at moved atB
  by_cases outerMoved : pick higher xs (pick higher xs k (2 * k + 1)) (2 * k + 2) =
      pick higher xs k (2 * k + 1)
  · -- the right child lost, so the left child won against `k`
    rw [outerMoved] at moved atB
    exact higher_pick moved atK atB
  · have overM : higher b m := higher_pick outerMoved atM atB
    by_cases innerMoved : pick higher xs k (2 * k + 1) = k
    · rw [innerMoved, atK] at atM
      cases atM
      exact overM
    · exact trans_of higher overM (higher_pick innerMoved atK atM)

end Pick

/-! ## The invariants of the bubbling loops -/

section Invariants

variable {higher : α → α → Prop} {xs ys : List α} {k : Nat}

theorem UpInv.around (inv : UpInv higher xs k) : AroundInv higher xs k :=
  ⟨fun i x y pos ne _ => inv.except i x y pos ne, inv.grand⟩

theorem exists_getElem?_of_lt {c : Nat} {x : α} (atC : xs[c]? = some x) (lt : k < c) :
    ∃ z, xs[k]? = some z :=
  ⟨_, List.getElem?_eq_getElem (Nat.lt_trans lt (List.getElem?_eq_some_iff.mp atC).1)⟩

/-- Only the new last element can be out of order after a push. -/
theorem Ordered.upInv_append (ordered : Ordered higher xs) (e : α) :
    UpInv higher (xs ++ [e]) xs.length where
  except i x y pos ne atI atP := by
    have inOld : i < xs.length := by
      have := (List.getElem?_eq_some_iff.mp atI).1
      simp only [List.length_append, List.length_singleton] at this
      omega
    rw [List.getElem?_append_left inOld] at atI
    rw [List.getElem?_append_left (Nat.lt_trans (parent_lt pos) inOld)] at atP
    exact ordered i x y pos atI atP
  grand _ c x _ child atC := by
    have beyond := (List.getElem?_eq_some_iff.mp atC).1
    have := child.lt
    simp only [List.length_append, List.length_singleton] at beyond
    omega

/-- A list that agrees with an ordered heap where it has elements is ordered. -/
theorem Ordered.of_agree (ordered : Ordered higher xs)
    (agree : ∀ (i : Nat) (x : α), ys[i]? = some x → xs[i]? = some x) : Ordered higher ys :=
  fun i x y pos atI atP => ordered i x y pos (agree i x atI) (agree (parent i) y atP)

variable [IsStrictWeakOrder α higher]

/-- An ordered heap is in order for a bubble towards the leaves from any position. -/
theorem Ordered.downInv (ordered : Ordered higher xs) : DownInv higher xs k where
  except i x y pos _ := ordered i x y pos
  grand pos c x y child atC atP := by
    obtain ⟨z, atK⟩ := exists_getElem?_of_lt atC child.lt
    have lower : ¬higher x z := ordered c x z child.1 atC (by rw [child.2]; exact atK)
    exact not_higher_trans lower (ordered k z y pos atK atP)

/-- A heap whose element at `k` was replaced, and perhaps its tail cut, satisfies `AroundInv`
there. -/
theorem Ordered.aroundInv_of_agree (ordered : Ordered higher xs) (lt : k < xs.length)
    (agree : ∀ (i : Nat) (x : α), i ≠ k → ys[i]? = some x → xs[i]? = some x) :
    AroundInv higher ys k where
  except i x y pos ne toK atI atP := ordered i x y pos (agree i x ne atI) (agree _ y toK atP)
  grand pos c x y child atC atP := by
    have atK : xs[k]? = some xs[k] := List.getElem?_eq_getElem lt
    have atC' := agree c x (Nat.ne_of_gt child.lt) atC
    have atP' := agree (parent k) y (Nat.ne_of_lt (parent_lt pos)) atP
    have lower : ¬higher x xs[k] := ordered c x _ child.1 atC' (by rw [child.2]; exact atK)
    exact not_higher_trans lower (ordered k _ y pos atK atP')

/-- A heap whose element `e` at `k` changed its priority, to `higher'`, satisfies `AroundInv`
there: the priorities of the others compare as before. -/
theorem Ordered.aroundInv_of_reweigh {higher' : α → α → Prop} {e : α}
    (ordered : Ordered higher xs) (atK : xs[k]? = some e)
    (apart : ∀ (i : Nat) (x : α), i ≠ k → xs[i]? = some x → x ≠ e)
    (agree : ∀ a b, a ≠ e → b ≠ e → (higher' a b ↔ higher a b)) : AroundInv higher' xs k where
  except i x y pos ne toK atI atP := by
    rw [agree x y (apart i x ne atI) (apart _ y toK atP)]
    exact ordered i x y pos atI atP
  grand pos c x y child atC atP := by
    have offC := apart c x (Nat.ne_of_gt child.lt) atC
    have offP := apart (parent k) y (Nat.ne_of_lt (parent_lt pos)) atP
    rw [agree x y offC offP]
    have lower : ¬higher x e := ordered c x e child.1 atC (by rw [child.2]; exact atK)
    exact not_higher_trans lower (ordered k e y pos atK atP)

/-- Writing an element of the same priority over another keeps a heap ordered. -/
theorem Ordered.set_of_incomp {a b : α} (ordered : Ordered higher xs) (atK : xs[k]? = some a)
    (ab : ¬higher a b) (ba : ¬higher b a) : Ordered higher (xs.set k b) := by
  intro i x y pos atI atP
  rw [List.getElem?_set] at atI atP
  have lt : k < xs.length := (List.getElem?_eq_some_iff.mp atK).1
  by_cases isK : k = i
  · -- `b` sits where `a` was, below `a`'s parent
    rw [if_pos isK, if_pos lt] at atI
    cases atI
    have toK : k ≠ parent i := by rw [← isK]; exact Nat.ne_of_gt (parent_lt (isK ▸ pos))
    rw [if_neg toK] at atP
    rw [higher_left_iff_of_incomp ba ab]
    exact ordered i a y pos (isK ▸ atK) atP
  · rw [if_neg isK] at atI
    by_cases toK : k = parent i
    · -- a child of `k`, below `b` as it was below `a`
      rw [if_pos toK, if_pos lt] at atP
      cases atP
      rw [higher_right_iff_of_incomp ba ab]
      exact ordered i x a pos atI (toK ▸ atK)
    · rw [if_neg toK] at atP
      exact ordered i x y pos atI atP

/-- One swap towards the root from a replaced position leaves the order a bubble up keeps. -/
theorem AroundInv.swapUp [DecidableRel higher] (inv : AroundInv higher xs k) (pos : 0 < k)
    (lt : k < xs.length) (above : higherAt higher xs k (parent k) = true) :
    UpInv higher (swapAt xs k (parent k)) (parent k) := by
  have pk : parent k < k := parent_lt pos
  have hp : parent k < xs.length := Nat.lt_trans pk lt
  obtain ⟨e, atK⟩ : ∃ e, xs[k]? = some e := ⟨_, List.getElem?_eq_getElem lt⟩
  obtain ⟨p, atP⟩ : ∃ p, xs[parent k]? = some p := ⟨_, List.getElem?_eq_getElem hp⟩
  have beats : higher e p := higher_of_higherAt above atK atP
  -- the edge from `parent k` to its own parent, which the swap leaves alone
  have upper : 0 < parent k → ∀ g, xs[parent (parent k)]? = some g → ¬higher p g :=
    fun ppos g atG => inv.except (parent k) p g ppos (Nat.ne_of_lt pk)
      (Nat.ne_of_lt (Nat.lt_trans (parent_lt ppos) pk)) atP atG
  constructor
  · intro i x y ipos ne atI atPi
    by_cases isK : i = k
    · subst isK
      rw [swapAt_left lt hp, atP] at atI
      rw [swapAt_right lt hp, atK] at atPi
      cases atI
      cases atPi
      exact asymm_of higher beats
    · rw [swapAt_other lt hp isK ne] at atI
      by_cases toK : parent i = k
      · -- a child of `k`, now below `p`
        rw [toK, swapAt_left lt hp, atP] at atPi
        cases atPi
        exact inv.grand pos i x p ⟨ipos, toK⟩ atI atP
      · by_cases toP : parent i = parent k
        · -- a sibling of `k`, now below `e`
          rw [toP, swapAt_right lt hp, atK] at atPi
          cases atPi
          have old := inv.except i x p ipos isK toK atI (by rw [toP]; exact atP)
          exact not_higher_of_higher beats old
        · rw [swapAt_other lt hp toK toP] at atPi
          exact inv.except i x y ipos isK toK atI atPi
  · intro ppos c x y child atC atG
    have gk : parent (parent k) ≠ k := Nat.ne_of_lt (Nat.lt_trans (parent_lt ppos) pk)
    rw [swapAt_other lt hp gk (Nat.ne_of_lt (parent_lt ppos))] at atG
    by_cases isK : c = k
    · subst isK
      rw [swapAt_left lt hp, atP] at atC
      cases atC
      exact upper ppos y atG
    · rw [swapAt_other lt hp isK (Nat.ne_of_gt child.lt)] at atC
      have toK : parent c ≠ k := by rw [child.2]; exact Nat.ne_of_lt pk
      have old := inv.except c x p child.1 isK toK atC (by rw [child.2]; exact atP)
      exact not_higher_trans old (upper ppos y atG)

theorem UpInv.swapUp [DecidableRel higher] (inv : UpInv higher xs k) (pos : 0 < k)
    (lt : k < xs.length) (above : higherAt higher xs k (parent k) = true) :
    UpInv higher (swapAt xs k (parent k)) (parent k) :=
  inv.around.swapUp pos lt above

omit [IsStrictWeakOrder α higher] in
/-- Where a bubble up stops off the root, its element is not above its parent. -/
theorem not_higher_of_stop [DecidableRel higher] {x y : α}
    (stop : ¬(0 < k ∧ higherAt higher xs k (parent k) = true)) (pos : 0 < k)
    (atK : xs[k]? = some x) (atP : xs[parent k]? = some y) : ¬higher x y :=
  not_higher_of_higherAt (Bool.eq_false_iff.mpr fun above => stop ⟨pos, above⟩) atK atP

omit [IsStrictWeakOrder α higher] in
/-- A bubble up that stops has ordered the heap. -/
theorem UpInv.finishUp [DecidableRel higher] (inv : UpInv higher xs k)
    (stop : ¬(0 < k ∧ higherAt higher xs k (parent k) = true)) : Ordered higher xs := by
  intro i x y pos atI atP
  by_cases isK : i = k
  · subst isK
    exact not_higher_of_stop stop pos atI atP
  · exact inv.except i x y pos isK atI atP

omit [IsStrictWeakOrder α higher] in
/-- A replaced element that is not above its parent leaves the order a bubble down keeps. -/
theorem AroundInv.downOfStop [DecidableRel higher] (inv : AroundInv higher xs k)
    (stop : ¬(0 < k ∧ higherAt higher xs k (parent k) = true)) : DownInv higher xs k where
  except i x y pos toK atI atP := by
    by_cases isK : i = k
    · subst isK
      exact not_higher_of_stop stop pos atI atP
    · exact inv.except i x y pos isK toK atI atP
  grand := inv.grand

/-- One swap with the winning child keeps the order of a bubble down, one level lower. -/
theorem DownInv.swapBest [DecidableRel higher] (inv : DownInv higher xs k) (lt : k < xs.length)
    (moved : best higher xs k ≠ k) :
    DownInv higher (swapAt xs (best higher xs k) k) (best higher xs k) := by
  have child : IsChild (best higher xs k) k := best_eq_or_isChild.resolve_left moved
  have hw : best higher xs k < xs.length := best_lt lt
  obtain ⟨e, atK⟩ : ∃ e, xs[k]? = some e := ⟨_, List.getElem?_eq_getElem lt⟩
  obtain ⟨v, atW⟩ : ∃ v, xs[best higher xs k]? = some v := ⟨_, List.getElem?_eq_getElem hw⟩
  have beats : higher v e := higher_best moved atK atW
  have wk : k ≠ best higher xs k := Nat.ne_of_lt child.lt
  constructor
  · intro i x y ipos toW atI atPi
    by_cases isW : i = best higher xs k
    · rw [isW] at atI atPi toW
      rw [swapAt_left hw lt, atK] at atI
      rw [child.2, swapAt_right hw lt, atW] at atPi
      cases atI
      cases atPi
      exact asymm_of higher beats
    · by_cases isK : i = k
      · -- `v` moved up to `k`, below `k`'s parent
        subst isK
        rw [swapAt_right hw lt, atW] at atI
        cases atI
        have pk : parent i ≠ i := Nat.ne_of_lt (parent_lt ipos)
        have pw : parent i ≠ best higher xs i :=
          Nat.ne_of_lt (Nat.lt_trans (parent_lt ipos) child.lt)
        rw [swapAt_other hw lt pw pk] at atPi
        exact inv.grand ipos _ v y child atW atPi
      · rw [swapAt_other hw lt isW isK] at atI
        by_cases toK : parent i = k
        · -- a sibling of the winner, now below it
          rw [toK, swapAt_right hw lt, atW] at atPi
          cases atPi
          exact not_higher_best_child ⟨ipos, toK⟩ atI atW
        · rw [swapAt_other hw lt toW toK] at atPi
          exact inv.except i x y ipos toK atI atPi
  · intro _ c x y grandchild atC atP
    rw [child.2, swapAt_right hw lt, atW] at atP
    cases atP
    have cw : c ≠ best higher xs k := Nat.ne_of_gt grandchild.lt
    have ck : c ≠ k := Nat.ne_of_gt (Nat.lt_trans child.lt grandchild.lt)
    rw [swapAt_other hw lt cw ck] at atC
    have toK : parent c ≠ k := by rw [grandchild.2]; exact Ne.symm wk
    exact inv.except c x v grandchild.1 toK atC (by rw [grandchild.2]; exact atW)

/-- A bubble down whose element beats both children has ordered the heap. -/
theorem DownInv.finishBest [DecidableRel higher] (inv : DownInv higher xs k)
    (stay : best higher xs k = k) : Ordered higher xs := by
  intro i x y pos atI atP
  by_cases toK : parent i = k
  · rw [toK, ← stay] at atP
    exact not_higher_best_child ⟨pos, toK⟩ atI atP
  · exact inv.except i x y pos toK atI atP

/-- The root of an ordered heap has the highest priority. -/
theorem Ordered.not_higher_root {top : α} (ordered : Ordered higher xs)
    (atRoot : xs[0]? = some top) : ∀ (i : Nat) (x : α), xs[i]? = some x → ¬higher x top := by
  intro i
  -- strong induction along the path of parents up to the root
  induction i using Nat.strong_induction_on with
  | _ i ih =>
    intro x atI
    rcases Nat.eq_zero_or_pos i with rfl | pos
    · rw [atRoot] at atI
      cases atI
      exact irrefl_of higher top
    · obtain ⟨y, atP⟩ := exists_getElem?_of_lt atI (parent_lt pos)
      exact not_higher_trans (ordered i x y pos atI atP) (ih (parent i) (parent_lt pos) y atP)

end Invariants

end IndexedHeap
