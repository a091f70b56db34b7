import Mathlib

/-!
# Split points and grids

The distinct values of a list, in increasing order, cut a line into cells: cell `y` holds
the values from the `y`-th split value up to, and without, the next one.  An interval
between two split values holds exactly the values of the cells between their positions
(`InCell.le_iff`, `InCell.lt_iff`), every value from the first split value to below the
last lies in a cell (`exists_inCell`), and `std::lower_bound` finds the position of a split
value (`lowerBound_getElem`).

Two lines of cells make a grid, numbered row by row: the cell `(y, x)` of a grid of width
`width` is `y * width + x` (`gridCells`).
-/

namespace SplitPoints

section Line

variable {α : Type*} [LinearOrder α]

/-- The distinct values of `l` in increasing order: `std::sort` and then `std::unique`, which
on a sorted list keeps one of each run of equal values, as `dedup` does. -/
def splitValues (l : List α) : List α := (l.insertionSort (· ≤ ·)).dedup

theorem sortedLT_splitValues (l : List α) : (splitValues l).SortedLT := by
  have sorted : (splitValues l).Pairwise (· ≤ ·) :=
    (List.pairwise_insertionSort _ l).sublist (List.dedup_sublist _)
  apply List.Pairwise.sortedLT
  exact (sorted.and (List.nodup_dedup _)).imp fun both => lt_of_le_of_ne both.1 both.2

@[simp] theorem mem_splitValues {l : List α} {a : α} : a ∈ splitValues l ↔ a ∈ l := by
  simp [splitValues, List.mem_insertionSort]

theorem length_splitValues (l : List α) : (splitValues l).length = l.toFinset.card := by
  rw [List.card_toFinset]
  exact ((List.perm_insertionSort _ l).dedup).length_eq

theorem length_splitValues_of_nodup {l : List α} (distinct : l.Nodup) :
    (splitValues l).length = l.length := by
  have sorted := List.perm_insertionSort (· ≤ ·) l
  rw [splitValues, List.Nodup.dedup (sorted.nodup_iff.mpr distinct), sorted.length_eq]

/-- Values that are all images of values of `l` have at most as many split values. -/
theorem length_splitValues_le_of_image {β : Type*} [LinearOrder β] {l : List α} {l' : List β}
    (f : α → β) (image : ∀ b ∈ l', ∃ a ∈ l, f a = b) :
    (splitValues l').length ≤ (splitValues l).length := by
  rw [length_splitValues, length_splitValues]
  calc l'.toFinset.card ≤ (l.toFinset.image f).card := by
        apply Finset.card_le_card
        intro b member
        obtain ⟨a, memberA, rfl⟩ := image b (List.mem_toFinset.mp member)
        exact Finset.mem_image_of_mem f (List.mem_toFinset.mpr memberA)
    _ ≤ l.toFinset.card := Finset.card_image_le

/-- `std::lower_bound` from position `first`: the first position from `first` on whose value
is not below `v`. -/
def lowerBound (l : List α) (first : Nat) (v : α) : Nat :=
  first + ((l.drop first).takeWhile fun a => decide (a < v)).length

theorem length_takeWhile_lt_getElem :
    ∀ {l : List α}, l.Pairwise (· < ·) → ∀ {i : Nat} (bound : i < l.length),
      (l.takeWhile fun a => decide (a < l[i])).length = i
  | a :: rest, _, 0, _ => by simp
  | a :: rest, sorted, i + 1, bound => by
      have inRest : i < rest.length := Nat.lt_of_succ_lt_succ bound
      have below : a < rest[i] := List.rel_of_pairwise_cons sorted (List.getElem_mem _)
      have tail := length_takeWhile_lt_getElem (List.Pairwise.of_cons sorted) inRest
      simp [below, tail]

/-- **`std::lower_bound` finds a split value** from any position not after it. -/
theorem lowerBound_getElem {l : List α} (sorted : l.SortedLT) {first i : Nat}
    (from_ : first ≤ i) (bound : i < l.length) : lowerBound l first l[i] = i := by
  obtain ⟨j, rfl⟩ : ∃ j, i = first + j := ⟨i - first, by omega⟩
  have inDrop : j < (l.drop first).length := by
    rw [List.length_drop]
    omega
  have shifted : l[first + j] = (l.drop first)[j] := by simp
  unfold lowerBound
  rw [shifted, length_takeWhile_lt_getElem sorted.pairwise.drop]

theorem getElem_le_getElem_iff {l : List α} (sorted : l.SortedLT) {i j : Nat}
    (hi : i < l.length) (hj : j < l.length) : l[i] ≤ l[j] ↔ i ≤ j := by
  have := (sorted.strictMono_get.le_iff_le :
    l.get ⟨i, hi⟩ ≤ l.get ⟨j, hj⟩ ↔ (⟨i, hi⟩ : Fin l.length) ≤ ⟨j, hj⟩)
  simpa using this

theorem getElem_lt_getElem_iff {l : List α} (sorted : l.SortedLT) {i j : Nat}
    (hi : i < l.length) (hj : j < l.length) : l[i] < l[j] ↔ i < j := by
  rw [← not_le, getElem_le_getElem_iff sorted hj hi, not_le]

/-- `v` lies in cell `y`: from the `y`-th split value up to the next one. -/
def InCell (l : List α) (y : Nat) (v : α) : Prop :=
  ∃ bound : y + 1 < l.length, l[y] ≤ v ∧ v < l[y + 1]

theorem inCell_getElem {l : List α} (sorted : l.SortedLT) {y : Nat} (bound : y + 1 < l.length) :
    InCell l y l[y] :=
  ⟨bound, le_rfl, (getElem_lt_getElem_iff sorted _ bound).mpr (Nat.lt_succ_self y)⟩

/-- **Every value between the first and the last split value lies in a cell.** -/
theorem exists_inCell {v : α} :
    ∀ (l : List α) (nonempty : 0 < l.length), l[0] ≤ v → v < l[l.length - 1] →
      ∃ y, InCell l y v
  | [a], _, low, high => absurd (lt_of_le_of_lt low high) (lt_irrefl a)
  | a :: b :: rest, _, low, high => by
      by_cases below : v < b
      · exact ⟨0, by simp, low, below⟩
      · obtain ⟨y, bound, cellLow, cellHigh⟩ := exists_inCell (b :: rest) (by simp)
          (not_lt.mp below) (by simpa using high)
        exact ⟨y + 1, by simpa using bound, cellLow, cellHigh⟩

section Cell

variable {l : List α} {y : Nat} {v : α}

/-- A split value is at most a value of cell `y` exactly when it comes no later than `y`. -/
theorem InCell.le_iff (cell : InCell l y v) (sorted : l.SortedLT) {a : Nat}
    (bound : a < l.length) : l[a] ≤ v ↔ a ≤ y := by
  obtain ⟨next, low, high⟩ := cell
  constructor
  · intro below
    by_contra after
    have : l[y + 1] ≤ l[a] := (getElem_le_getElem_iff sorted next bound).mpr (by omega)
    exact absurd (lt_of_lt_of_le high this) (not_lt.mpr below)
  · intro before
    exact le_trans ((getElem_le_getElem_iff sorted bound (by omega)).mpr before) low

/-- A split value is above a value of cell `y` exactly when it comes after `y`. -/
theorem InCell.lt_iff (cell : InCell l y v) (sorted : l.SortedLT) {a : Nat}
    (bound : a < l.length) : v < l[a] ↔ y < a := by
  rw [← not_le, cell.le_iff sorted bound, not_le]

theorem InCell.lt_length (cell : InCell l y v) : y + 1 < l.length := cell.1

theorem getElem_zero_le (sorted : l.SortedLT) (nonempty : 0 < l.length) {w : α} (member : w ∈ l) :
    l[0] ≤ w := by
  obtain ⟨i, bound, rfl⟩ := List.mem_iff_getElem.mp member
  exact (getElem_le_getElem_iff sorted nonempty bound).mpr (Nat.zero_le i)

theorem le_getElem_last (sorted : l.SortedLT) (nonempty : 0 < l.length) {w : α} (member : w ∈ l) :
    w ≤ l[l.length - 1] := by
  obtain ⟨i, bound, rfl⟩ := List.mem_iff_getElem.mp member
  exact (getElem_le_getElem_iff sorted bound (by omega)).mpr (by omega)

/-- The values in some cell are those from the first split value to below the last. -/
theorem exists_inCell_iff (sorted : l.SortedLT) (nonempty : 0 < l.length) :
    (∃ y, InCell l y v) ↔ l[0] ≤ v ∧ v < l[l.length - 1] := by
  constructor
  · rintro ⟨y, cell⟩
    obtain ⟨next, low, high⟩ := cell
    exact ⟨le_trans (getElem_zero_le sorted nonempty (List.getElem_mem _)) low,
      lt_of_lt_of_le high (le_getElem_last sorted nonempty (List.getElem_mem _))⟩
  · rintro ⟨low, high⟩
    exact exists_inCell l nonempty low high

end Cell

section Pairs

variable {ι : Type*} {l : List ι} {lo hi : ι → α}

/-- Of values of pairs with `lo i < hi i`, the least is some `lo i`. -/
theorem exists_lower_eq_of_least (ordered : ∀ i ∈ l, lo i < hi i) {v : α}
    (member : v ∈ l.flatMap fun i => [lo i, hi i])
    (least : ∀ w ∈ l.flatMap (fun i => [lo i, hi i]), v ≤ w) : ∃ i ∈ l, lo i = v := by
  obtain ⟨i, memberI, isLo | isHi⟩ : ∃ i ∈ l, v = lo i ∨ v = hi i := by simpa using member
  · exact ⟨i, memberI, isLo.symm⟩
  · have below := least (lo i) (List.mem_flatMap.mpr ⟨i, memberI, by simp⟩)
    exact absurd (isHi ▸ below) (not_le.mpr (ordered i memberI))

/-- Of values of pairs with `lo i < hi i`, the greatest is some `hi i`. -/
theorem exists_upper_eq_of_greatest (ordered : ∀ i ∈ l, lo i < hi i) {v : α}
    (member : v ∈ l.flatMap fun i => [lo i, hi i])
    (greatest : ∀ w ∈ l.flatMap (fun i => [lo i, hi i]), w ≤ v) : ∃ i ∈ l, hi i = v := by
  obtain ⟨i, memberI, isLo | isHi⟩ : ∃ i ∈ l, v = lo i ∨ v = hi i := by simpa using member
  · have above := greatest (hi i) (List.mem_flatMap.mpr ⟨i, memberI, by simp⟩)
    exact absurd (isLo ▸ above) (not_le.mpr (ordered i memberI))
  · exact ⟨i, memberI, isHi.symm⟩

end Pairs

end Line

section Grid

/-- The cells `y * width + x` for `y` in `[y0, y1)` and `x` in `[x0, x1)`, row by row. -/
def gridCells (width y0 y1 x0 x1 : Nat) : List Nat :=
  (List.range' y0 (y1 - y0)).flatMap fun y =>
    (List.range' x0 (x1 - x0)).map fun x => y * width + x

variable {width : Nat}

theorem cellIndex_lt_of_lt {y y' x x' : Nat} (column : x < width) (before : y < y') :
    y * width + x < y' * width + x' :=
  calc y * width + x < (y + 1) * width := by rw [Nat.succ_mul]; omega
    _ ≤ y' * width := Nat.mul_le_mul_right _ before
    _ ≤ y' * width + x' := Nat.le_add_right _ _

theorem cellIndex_lt {height y x : Nat} (column : x < width) (row : y < height) :
    y * width + x < width * height :=
  calc y * width + x < (y + 1) * width := by rw [Nat.succ_mul]; omega
    _ ≤ height * width := Nat.mul_le_mul_right _ row
    _ = width * height := Nat.mul_comm _ _

/-- Within the width, a cell's number gives its row and column back. -/
theorem cellIndex_inj {y y' x x' : Nat} (column : x < width) (column' : x' < width)
    (same : y * width + x = y' * width + x') : y = y' ∧ x = x' := by
  rcases lt_trichotomy y y' with before | rfl | after
  · exact absurd same (ne_of_lt (cellIndex_lt_of_lt column before))
  · exact ⟨rfl, by omega⟩
  · exact absurd same.symm (ne_of_lt (cellIndex_lt_of_lt column' after))

theorem mem_gridCells {y0 y1 x0 x1 ix : Nat} :
    ix ∈ gridCells width y0 y1 x0 x1 ↔
      ∃ y x, (y0 ≤ y ∧ y < y1) ∧ (x0 ≤ x ∧ x < x1) ∧ y * width + x = ix := by
  simp only [gridCells, List.mem_flatMap, List.mem_map, List.mem_range'_1]
  constructor
  · rintro ⟨y, rowBounds, x, columnBounds, rfl⟩
    exact ⟨y, x, by omega, by omega, rfl⟩
  · rintro ⟨y, x, rowBounds, columnBounds, rfl⟩
    exact ⟨y, by omega, x, by omega, rfl⟩

theorem nodup_gridCells {y0 y1 x0 x1 : Nat} (fits : x1 ≤ width) :
    (gridCells width y0 y1 x0 x1).Nodup := by
  apply List.nodup_flatMap.mpr
  constructor
  · intro y _
    exact List.Nodup.map (fun x x' same => by omega) List.nodup_range'
  · apply List.Nodup.pairwise_of_forall_ne List.nodup_range'
    intro y memberY y' memberY' differ ix inRow inRow'
    simp only [List.mem_map, List.mem_range'_1] at inRow inRow'
    obtain ⟨x, columnBounds, rfl⟩ := inRow
    obtain ⟨x', columnBounds', same⟩ := inRow'
    exact differ (cellIndex_inj (by omega) (by omega) same.symm).1

/-- A set of cells below `n` misses one of them exactly when it has fewer than `n`. -/
theorem card_lt_iff_exists_notMem {s : Finset Nat} {n : Nat} (below : ∀ ix ∈ s, ix < n) :
    s.card < n ↔ ∃ ix < n, ix ∉ s := by
  constructor
  · intro fewer
    by_contra full
    push Not at full
    have covers : Finset.range n ⊆ s := fun ix member => full ix (Finset.mem_range.mp member)
    exact absurd (Finset.card_le_card covers) (by simpa using fewer)
  · rintro ⟨ix, bound, missing⟩
    have strict : s ⊂ Finset.range n := Finset.ssubset_iff_subset_ne.mpr
      ⟨fun j member => Finset.mem_range.mpr (below j member),
        fun same => missing (same ▸ Finset.mem_range.mpr bound)⟩
    simpa using Finset.card_lt_card strict

end Grid

end SplitPoints
