import Mathlib
import RethinkDB.Region.HashRegion
import RethinkDB.Foundations.SplitPoints

/-!
# Joining hash regions

`region_join` of `region/hash_region.cc` decides whether a list of regions tiles one
rectangle.  It sorts the regions' hash bounds and key bounds, keeps one of each value, and
so cuts the bounding rectangle into a grid of `granular_height` rows and `granular_width`
columns.  Every region covers a block of cells, found with `std::lower_bound`; a cell covered
twice is `REGION_JOIN_BAD_JOIN`, a cell left uncovered is `REGION_JOIN_BAD_REGION`, and
otherwise the bounding rectangle is the join.

The grid is exact: a point lies in a region exactly when its cell lies in the region's
block (`mem_points_iff_mem_blockCells`).  So two regions share a point exactly when their
blocks share a cell, and the regions cover the bounding rectangle exactly when the blocks
cover the grid (`region_join_decides_tiling`).  Before the loop the code guarantees
`granular_width < INT_MAX / granular_height`, which a staircase of 23171 disjoint regions
already fails (`region_join_staircase_fails`).
-/

namespace RethinkDB
namespace Region

open Btree SplitPoints HashRegion

/-- `region_join_result_t`, with the region the code writes to `out` on `REGION_JOIN_OK`. -/
inductive RegionJoinResult
  | ok (out : HashRegion)
  | badJoin
  | badRegion
  deriving DecidableEq

/-- `INT_MAX`. -/
def intMax : Nat := 2 ^ 31 - 1

/-- The hash split values: the `beg` and `end` of every region (`double_hash_lookup`). -/
def hashSplitpoints (vec : List HashRegion) : List Nat :=
  splitValues (vec.flatMap fun r => [r.beg, r.«end»])

/-- The key split values: the left key and the right bound of every region
(`double_key_lookup`), `NULL` for an unbounded right bound, which
`key_splitpoint_comparer_t` puts above every key. -/
def keySplitpoints (vec : List HashRegion) : List RightBound :=
  splitValues (vec.flatMap fun r => [RightBound.bounded r.inner.left, r.inner.right])

/-- The cells `y * granular_width + x` of region `r`, in the order of the loops over `it` and
`jt`. -/
def blockCells (hashes : List Nat) (keys : List RightBound) (granularWidth : Nat)
    (r : HashRegion) : List Nat :=
  let begPos := lowerBound hashes 0 r.beg
  let endPos := lowerBound hashes begPos r.«end»
  let leftPos := lowerBound keys 0 (.bounded r.inner.left)
  let rightPos := lowerBound keys leftPos r.inner.right
  gridCells granularWidth begPos endPos leftPos rightPos

/-- Marking cells in `covered` and counting them in `num_covered`; `none` at a cell already
covered, where the code returns `REGION_JOIN_BAD_JOIN`. -/
def markCells : List Nat → Finset Nat × Nat → Option (Finset Nat × Nat)
  | [], state => some state
  | ix :: rest, (covered, numCovered) =>
      if ix ∈ covered then none else markCells rest (insert ix covered, numCovered + 1)

/-- The region written to `out`, from the first to the last split values.  The code
dereferences `out_left` after an `rassert` that it is not `NULL`. -/
def joinedRegion (hashes : List Nat) (keys : List RightBound) : Option HashRegion :=
  match keys.head?, keys.getLast? with
  | some (.bounded outLeft), some (.bounded outRight) =>
      make (hashes.headD 0) (hashes.getLastD 0)
        (KeyRange.make .closed outLeft .«open» outRight)
  | some (.bounded outLeft), some .unbounded =>
      make (hashes.headD 0) (hashes.getLastD 0)
        (KeyRange.make .closed outLeft .none StoreKey.min)
  | _, _ => none

/-- `region_join(const std::vector<hash_region_t<key_range_t> > &vec, hash_region_t *out)`;
`none` where a guarantee fails. -/
def regionJoin (vec : List HashRegion) : Option RegionJoinResult :=
  let hashes := hashSplitpoints vec
  let keys := keySplitpoints vec
  let granularHeight := hashes.length - 1
  let granularWidth := keys.length - 1
  if granularWidth = 0 ∨ granularHeight = 0 then
    match vec with
    | [] => some (.ok empty)
    | first :: _ =>
        if first.beg = 0 ∧ first.«end» = 0 ∧ first.inner.isEmpty = true then some (.ok empty)
        else none
  else if granularWidth < intMax / granularHeight then
    match vec.foldlM (fun state r => markCells (blockCells hashes keys granularWidth r) state)
        (∅, 0) with
    | none => some .badJoin
    | some (_, numCovered) =>
        if numCovered < granularWidth * granularHeight then some .badRegion
        else (joinedRegion hashes keys).map .ok
  else none

/-! ## Marking cells -/

theorem markCells_append : ∀ (cells cells' : List Nat) (state : Finset Nat × Nat),
    markCells (cells ++ cells') state = (markCells cells state).bind (markCells cells')
  | [], _, _ => rfl
  | ix :: rest, cells', (covered, numCovered) => by
      by_cases marked : ix ∈ covered
      · simp [markCells, marked]
      · simp only [List.cons_append, markCells, marked, if_false]
        exact markCells_append rest cells' _

/-- The loop over the regions marks the cells of all their blocks, one after another. -/
theorem foldlM_markCells {β : Type*} (block : β → List Nat) :
    ∀ (l : List β) (state : Finset Nat × Nat),
      l.foldlM (fun state r => markCells (block r) state) state =
        markCells (l.flatMap block) state
  | [], _ => rfl
  | r :: rest, state => by
      rw [List.foldlM_cons, List.flatMap_cons, markCells_append]
      cases markCells (block r) state with
      | none => rfl
      | some state' => exact foldlM_markCells block rest state'

/-- **Marking succeeds on cells that are new and distinct**, and then counts them. -/
theorem markCells_eq : ∀ (cells : List Nat) (covered : Finset Nat) (numCovered : Nat),
    markCells cells (covered, numCovered) =
      if cells.Nodup ∧ ∀ ix ∈ cells, ix ∉ covered then
        some (covered ∪ cells.toFinset, numCovered + cells.length)
      else none
  | [], covered, numCovered => by simp [markCells]
  | ix :: rest, covered, numCovered => by
      rw [markCells, markCells_eq rest]
      by_cases marked : ix ∈ covered
      · simp [marked]
      · have sameCovered : insert ix covered ∪ rest.toFinset = covered ∪ (ix :: rest).toFinset := by
          ext j
          simp only [Finset.mem_union, Finset.mem_insert, List.toFinset_cons]
          tauto
        have sameCount : numCovered + 1 + rest.length = numCovered + (ix :: rest).length := by
          simp only [List.length_cons]
          omega
        have sameCondition : (rest.Nodup ∧ ∀ j ∈ rest, j ∉ insert ix covered) ↔
            ((ix :: rest).Nodup ∧ ∀ j ∈ ix :: rest, j ∉ covered) := by
          simp only [Finset.mem_insert, not_or, List.nodup_cons, List.forall_mem_cons, marked,
            not_false_eq_true, true_and]
          constructor
          · rintro ⟨nodup, fresh⟩
            exact ⟨⟨fun member => (fresh ix member).1 rfl, nodup⟩, fun j member => (fresh j member).2⟩
          · rintro ⟨⟨notMember, nodup⟩, fresh⟩
            exact ⟨nodup, fun j member => ⟨fun same => notMember (same ▸ member), fresh j member⟩⟩
        simp only [marked, if_false, sameCovered, sameCount, sameCondition]

/-! ## The grid of split values -/

section Grid

variable {vec : List HashRegion}

theorem sortedLT_hashSplitpoints (vec : List HashRegion) : (hashSplitpoints vec).SortedLT :=
  sortedLT_splitValues _

theorem sortedLT_keySplitpoints (vec : List HashRegion) : (keySplitpoints vec).SortedLT :=
  sortedLT_splitValues _

theorem mem_hashSplitpoints {h : Nat} :
    h ∈ hashSplitpoints vec ↔ ∃ r ∈ vec, h = r.beg ∨ h = r.«end» := by
  simp [hashSplitpoints]

theorem mem_keySplitpoints {k : RightBound} :
    k ∈ keySplitpoints vec ↔ ∃ r ∈ vec, k = .bounded r.inner.left ∨ k = r.inner.right := by
  simp [keySplitpoints]

/-- Where the bounds of region `r` sit among the split values. -/
structure Placed (vec : List HashRegion) (r : HashRegion) (a b c d : Nat) : Prop where
  beg_lt_end : a < b
  end_lt : b < (hashSplitpoints vec).length
  left_lt_right : c < d
  right_lt : d < (keySplitpoints vec).length
  beg_eq : (hashSplitpoints vec)[a] = r.beg
  end_eq : (hashSplitpoints vec)[b] = r.«end»
  left_eq : (keySplitpoints vec)[c] = .bounded r.inner.left
  right_eq : (keySplitpoints vec)[d] = r.inner.right

theorem exists_placed {r : HashRegion} (member : r ∈ vec) (proper : r.Proper) :
    ∃ a b c d, Placed vec r a b c d := by
  obtain ⟨a, ha, begEq⟩ :=
    List.mem_iff_getElem.mp (mem_hashSplitpoints.mpr ⟨r, member, Or.inl rfl⟩)
  obtain ⟨b, hb, endEq⟩ :=
    List.mem_iff_getElem.mp (mem_hashSplitpoints.mpr ⟨r, member, Or.inr rfl⟩)
  obtain ⟨c, hc, leftEq⟩ :=
    List.mem_iff_getElem.mp (mem_keySplitpoints.mpr ⟨r, member, Or.inl rfl⟩)
  obtain ⟨d, hd, rightEq⟩ :=
    List.mem_iff_getElem.mp (mem_keySplitpoints.mpr ⟨r, member, Or.inr rfl⟩)
  have ordered : a < b := by
    apply (getElem_lt_getElem_iff (sortedLT_hashSplitpoints vec) ha hb).mp
    rw [begEq, endEq]
    exact proper.beg_lt_end
  have ordered' : c < d := by
    apply (getElem_lt_getElem_iff (sortedLT_keySplitpoints vec) hc hd).mp
    rw [leftEq, rightEq]
    exact proper.left_lt_right
  exact ⟨a, b, c, d, ordered, hb, ordered', hd, begEq, endEq, leftEq, rightEq⟩

section Placed

variable {r : HashRegion} {a b c d : Nat} (placed : Placed vec r a b c d)
include placed

theorem Placed.beg_lt : a < (hashSplitpoints vec).length :=
  placed.beg_lt_end.trans placed.end_lt

theorem Placed.left_lt : c < (keySplitpoints vec).length :=
  placed.left_lt_right.trans placed.right_lt

/-- `std::lower_bound` finds the positions of the region's bounds, so its block is the grid
between them. -/
theorem Placed.blockCells_eq (width : Nat) :
    blockCells (hashSplitpoints vec) (keySplitpoints vec) width r = gridCells width a b c d := by
  have sortedH := sortedLT_hashSplitpoints vec
  have sortedK := sortedLT_keySplitpoints vec
  have begPos : lowerBound (hashSplitpoints vec) 0 r.beg = a := by
    rw [← placed.beg_eq]
    exact lowerBound_getElem sortedH (Nat.zero_le a) placed.beg_lt
  have endPos : lowerBound (hashSplitpoints vec) a r.«end» = b := by
    rw [← placed.end_eq]
    exact lowerBound_getElem sortedH placed.beg_lt_end.le placed.end_lt
  have leftPos : lowerBound (keySplitpoints vec) 0 (.bounded r.inner.left) = c := by
    rw [← placed.left_eq]
    exact lowerBound_getElem sortedK (Nat.zero_le c) placed.left_lt
  have rightPos : lowerBound (keySplitpoints vec) c r.inner.right = d := by
    rw [← placed.right_eq]
    exact lowerBound_getElem sortedK placed.left_lt_right.le placed.right_lt
  simp only [blockCells, begPos, endPos, leftPos, rightPos]

/-- **A point lies in a region exactly when its cell lies in the region's block.** -/
theorem Placed.mem_points_iff {p : Nat × StoreKey} {y x : Nat}
    (row : InCell (hashSplitpoints vec) y p.1)
    (column : InCell (keySplitpoints vec) x (.bounded p.2)) :
    p ∈ r.points ↔ (a ≤ y ∧ y < b) ∧ (c ≤ x ∧ x < d) := by
  have sortedH := sortedLT_hashSplitpoints vec
  have sortedK := sortedLT_keySplitpoints vec
  rw [points_eq, Set.mem_prod, Set.mem_Ico, KeyRange.mem_keys, ← RightBound.bounded_le_bounded,
    ← placed.beg_eq, ← placed.end_eq, ← placed.left_eq, ← placed.right_eq,
    row.le_iff sortedH placed.beg_lt, row.lt_iff sortedH placed.end_lt,
    column.le_iff sortedK placed.left_lt, column.lt_iff sortedK placed.right_lt]

theorem Placed.mem_points_iff_mem_gridCells {p : Nat × StoreKey} {y x : Nat}
    (row : InCell (hashSplitpoints vec) y p.1)
    (column : InCell (keySplitpoints vec) x (.bounded p.2)) :
    p ∈ r.points ↔ y * ((keySplitpoints vec).length - 1) + x ∈
      gridCells ((keySplitpoints vec).length - 1) a b c d := by
  rw [placed.mem_points_iff row column, mem_gridCells]
  constructor
  · intro inBlock
    exact ⟨y, x, inBlock.1, inBlock.2, rfl⟩
  · rintro ⟨y', x', rowBounds, columnBounds, same⟩
    have narrow : x' < (keySplitpoints vec).length - 1 := by
      have := placed.right_lt
      omega
    have narrow' : x < (keySplitpoints vec).length - 1 := by
      have := column.lt_length
      omega
    obtain ⟨rfl, rfl⟩ := cellIndex_inj narrow narrow' same
    exact ⟨rowBounds, columnBounds⟩

/-- Every point of a region lies in a cell of the grid. -/
theorem Placed.exists_cells {p : Nat × StoreKey} (inside : p ∈ r.points) :
    ∃ y x, InCell (hashSplitpoints vec) y p.1 ∧ InCell (keySplitpoints vec) x (.bounded p.2) := by
  have sortedH := sortedLT_hashSplitpoints vec
  have sortedK := sortedLT_keySplitpoints vec
  have nonemptyH : 0 < (hashSplitpoints vec).length := by
    have := placed.end_lt
    omega
  have nonemptyK : 0 < (keySplitpoints vec).length := by
    have := placed.right_lt
    omega
  rw [points_eq, Set.mem_prod, Set.mem_Ico, KeyRange.mem_keys] at inside
  obtain ⟨⟨low, high⟩, left, right⟩ := inside
  obtain ⟨y, row⟩ := (exists_inCell_iff sortedH nonemptyH).mpr
    ⟨le_trans (getElem_zero_le sortedH nonemptyH (List.getElem_mem placed.beg_lt))
        (placed.beg_eq ▸ low),
      lt_of_lt_of_le (placed.end_eq ▸ high)
        (le_getElem_last sortedH nonemptyH (List.getElem_mem placed.end_lt))⟩
  obtain ⟨x, column⟩ := (exists_inCell_iff sortedK nonemptyK).mpr
    ⟨le_trans (getElem_zero_le sortedK nonemptyK (List.getElem_mem placed.left_lt))
        (placed.left_eq ▸ RightBound.bounded_le_bounded.mpr left),
      lt_of_lt_of_le (placed.right_eq ▸ right)
        (le_getElem_last sortedK nonemptyK (List.getElem_mem placed.right_lt))⟩
  exact ⟨y, x, row, column⟩

end Placed

/-- Every cell of the grid holds a point: its lower corner. -/
theorem exists_point_inCell {y x : Nat} (row : y + 1 < (hashSplitpoints vec).length)
    (column : x + 1 < (keySplitpoints vec).length) :
    ∃ p : Nat × StoreKey,
      InCell (hashSplitpoints vec) y p.1 ∧ InCell (keySplitpoints vec) x (.bounded p.2) := by
  have sortedK := sortedLT_keySplitpoints vec
  have below : (keySplitpoints vec)[x] < (keySplitpoints vec)[x + 1] :=
    (getElem_lt_getElem_iff sortedK _ column).mpr (Nat.lt_succ_self x)
  have corner := inCell_getElem sortedK column
  -- Only the last key split value can be unbounded.
  cases lower : (keySplitpoints vec)[x] with
  | unbounded =>
      rw [lower] at below
      exact absurd below (RightBound.not_unbounded_lt _)
  | bounded key =>
      rw [lower] at corner
      exact ⟨((hashSplitpoints vec)[y], key),
        inCell_getElem (sortedLT_hashSplitpoints vec) row, corner⟩

/-- The points of the regions of `vec`. -/
def unionPoints (vec : List HashRegion) : Set (Nat × StoreKey) :=
  {p | ∃ r ∈ vec, p ∈ r.points}

@[simp] theorem unionPoints_nil : unionPoints [] = ∅ := by
  simp [unionPoints]

@[simp] theorem unionPoints_cons (r : HashRegion) (vec : List HashRegion) :
    unionPoints (r :: vec) = r.points ∪ unionPoints vec := by
  ext p
  simp [unionPoints]

@[simp] theorem unionPoints_append (vec vec' : List HashRegion) :
    unionPoints (vec ++ vec') = unionPoints vec ∪ unionPoints vec' := by
  ext p
  simp only [unionPoints, List.mem_append, Set.mem_union, Set.mem_ofPred_eq]
  constructor
  · rintro ⟨r, member | member, inside⟩
    exacts [Or.inl ⟨r, member, inside⟩, Or.inr ⟨r, member, inside⟩]
  · rintro (⟨r, member, inside⟩ | ⟨r, member, inside⟩)
    exacts [⟨r, Or.inl member, inside⟩, ⟨r, Or.inr member, inside⟩]

/-- Regions with points have no points together only when there are none. -/
theorem unionPoints_eq_empty_iff {vec : List HashRegion} (proper : ∀ r ∈ vec, r.Proper) :
    unionPoints vec = ∅ ↔ vec = [] := by
  constructor
  · intro noPoints
    cases vec with
    | nil => rfl
    | cons r rest =>
        have corner := (proper r (List.mem_cons_self ..)).corner_mem
        have inUnion : (r.beg, r.inner.left) ∈ unionPoints (r :: rest) := by
          rw [unionPoints_cons]
          exact Or.inl corner
        rw [noPoints] at inUnion
        exact absurd inUnion (Set.notMem_empty _)
  · rintro rfl
    exact unionPoints_nil

/-- The points of the bounding rectangle: those in a cell of the grid. -/
def InGrid (vec : List HashRegion) (p : Nat × StoreKey) : Prop :=
  ∃ y x, InCell (hashSplitpoints vec) y p.1 ∧ InCell (keySplitpoints vec) x (.bounded p.2)

/-- A set of points is one rectangle `[beg, end) × key range`: the points of a region. -/
def IsRectangle (X : Set (Nat × StoreKey)) : Prop :=
  ∃ rect : HashRegion, rect.points = X

section Blocks

variable (proper : ∀ r ∈ vec, r.Proper)
include proper

/-- `regionJoin`'s block of a region of `vec`. -/
theorem mem_points_iff_mem_blockCells {r : HashRegion} (member : r ∈ vec) {p : Nat × StoreKey}
    {y x : Nat} (row : InCell (hashSplitpoints vec) y p.1)
    (column : InCell (keySplitpoints vec) x (.bounded p.2)) :
    p ∈ r.points ↔ y * ((keySplitpoints vec).length - 1) + x ∈
      blockCells (hashSplitpoints vec) (keySplitpoints vec) ((keySplitpoints vec).length - 1) r := by
  obtain ⟨a, b, c, d, placed⟩ := exists_placed member (proper r member)
  rw [placed.blockCells_eq]
  exact placed.mem_points_iff_mem_gridCells row column

theorem exists_cell_of_mem_blockCells {r : HashRegion} (member : r ∈ vec) {ix : Nat}
    (inBlock : ix ∈
      blockCells (hashSplitpoints vec) (keySplitpoints vec) ((keySplitpoints vec).length - 1) r) :
    ∃ y x, y + 1 < (hashSplitpoints vec).length ∧ x + 1 < (keySplitpoints vec).length ∧
      y * ((keySplitpoints vec).length - 1) + x = ix := by
  obtain ⟨a, b, c, d, placed⟩ := exists_placed member (proper r member)
  rw [placed.blockCells_eq, mem_gridCells] at inBlock
  obtain ⟨y, x, rowBounds, columnBounds, rfl⟩ := inBlock
  have := placed.end_lt
  have := placed.right_lt
  exact ⟨y, x, by omega, by omega, rfl⟩

theorem nodup_blockCells {r : HashRegion} (member : r ∈ vec) :
    (blockCells (hashSplitpoints vec) (keySplitpoints vec)
      ((keySplitpoints vec).length - 1) r).Nodup := by
  obtain ⟨a, b, c, d, placed⟩ := exists_placed member (proper r member)
  rw [placed.blockCells_eq]
  apply nodup_gridCells
  have := placed.right_lt
  omega

theorem blockCells_lt {r : HashRegion} (member : r ∈ vec) {ix : Nat}
    (inBlock : ix ∈
      blockCells (hashSplitpoints vec) (keySplitpoints vec) ((keySplitpoints vec).length - 1) r) :
    ix < ((keySplitpoints vec).length - 1) * ((hashSplitpoints vec).length - 1) := by
  obtain ⟨y, x, row, column, rfl⟩ := exists_cell_of_mem_blockCells proper member inBlock
  exact cellIndex_lt (by omega) (by omega)

/-- **Two regions share a point exactly when their blocks share a cell.** -/
theorem disjoint_points_iff {r s : HashRegion} (memberR : r ∈ vec) (memberS : s ∈ vec) :
    Disjoint r.points s.points ↔ List.Disjoint
      (blockCells (hashSplitpoints vec) (keySplitpoints vec) ((keySplitpoints vec).length - 1) r)
      (blockCells (hashSplitpoints vec) (keySplitpoints vec) ((keySplitpoints vec).length - 1) s) := by
  constructor
  · intro disjoint ix inR inS
    obtain ⟨y, x, row, column, rfl⟩ := exists_cell_of_mem_blockCells proper memberR inR
    obtain ⟨p, rowP, columnP⟩ := exists_point_inCell row column
    exact Set.disjoint_left.mp disjoint
      ((mem_points_iff_mem_blockCells proper memberR rowP columnP).mpr inR)
      ((mem_points_iff_mem_blockCells proper memberS rowP columnP).mpr inS)
  · intro disjoint
    refine Set.disjoint_left.mpr fun p inR inS => ?_
    obtain ⟨a, b, c, d, placed⟩ := exists_placed memberR (proper r memberR)
    obtain ⟨y, x, row, column⟩ := placed.exists_cells inR
    exact disjoint ((mem_points_iff_mem_blockCells proper memberR row column).mp inR)
      ((mem_points_iff_mem_blockCells proper memberS row column).mp inS)

/-- The loop meets no cell twice exactly when the regions are pairwise disjoint. -/
theorem nodup_flatMap_blockCells_iff :
    (vec.flatMap fun r => blockCells (hashSplitpoints vec) (keySplitpoints vec)
      ((keySplitpoints vec).length - 1) r).Nodup ↔
      vec.Pairwise fun r s => Disjoint r.points s.points := by
  rw [List.nodup_flatMap]
  constructor
  · rintro ⟨_, pairwise⟩
    exact pairwise.imp_of_mem fun memberR memberS disjoint =>
      (disjoint_points_iff proper memberR memberS).mpr disjoint
  · intro pairwise
    exact ⟨fun r member => nodup_blockCells proper member,
      pairwise.imp_of_mem fun memberR memberS disjoint =>
        (disjoint_points_iff proper memberR memberS).mp disjoint⟩

/-- **The blocks cover the grid exactly when the regions cover the bounding rectangle.** -/
theorem covers_grid_iff :
    (∀ ix < ((keySplitpoints vec).length - 1) * ((hashSplitpoints vec).length - 1),
        ∃ r ∈ vec, ix ∈ blockCells (hashSplitpoints vec) (keySplitpoints vec)
          ((keySplitpoints vec).length - 1) r) ↔
      ∀ p, InGrid vec p ↔ p ∈ unionPoints vec := by
  constructor
  · intro covered p
    constructor
    · rintro ⟨y, x, row, column⟩
      have bound := cellIndex_lt
        (show x < (keySplitpoints vec).length - 1 by have := column.lt_length; omega)
        (show y < (hashSplitpoints vec).length - 1 by have := row.lt_length; omega)
      obtain ⟨r, member, inBlock⟩ := covered _ bound
      exact ⟨r, member, (mem_points_iff_mem_blockCells proper member row column).mpr inBlock⟩
    · rintro ⟨r, member, inside⟩
      obtain ⟨a, b, c, d, placed⟩ := exists_placed member (proper r member)
      exact placed.exists_cells inside
  · intro same ix bound
    have wide : 0 < (keySplitpoints vec).length - 1 := Nat.pos_of_ne_zero fun zero => by
      simp [zero] at bound
    have bound' : ix < ((hashSplitpoints vec).length - 1) * ((keySplitpoints vec).length - 1) := by
      rw [Nat.mul_comm]
      exact bound
    have rowBound : ix / ((keySplitpoints vec).length - 1) + 1 < (hashSplitpoints vec).length := by
      exact Nat.lt_sub_iff_add_lt.mp ((Nat.div_lt_iff_lt_mul wide).mpr bound')
    have columnBound : ix % ((keySplitpoints vec).length - 1) + 1 < (keySplitpoints vec).length := by
      have := Nat.mod_lt ix wide
      omega
    obtain ⟨p, row, column⟩ := exists_point_inCell rowBound columnBound
    obtain ⟨r, member, inside⟩ := (same p).mp ⟨_, _, row, column⟩
    refine ⟨r, member, ?_⟩
    have inBlock := (mem_points_iff_mem_blockCells proper member row column).mp inside
    rwa [Nat.div_add_mod'] at inBlock

end Blocks

theorem inGrid_iff (nonemptyH : 0 < (hashSplitpoints vec).length)
    (nonemptyK : 0 < (keySplitpoints vec).length) {p : Nat × StoreKey} :
    InGrid vec p ↔
      ((hashSplitpoints vec)[0] ≤ p.1 ∧
        p.1 < (hashSplitpoints vec)[(hashSplitpoints vec).length - 1]) ∧
      ((keySplitpoints vec)[0] ≤ .bounded p.2 ∧
        .bounded p.2 < (keySplitpoints vec)[(keySplitpoints vec).length - 1]) := by
  rw [← exists_inCell_iff (sortedLT_hashSplitpoints vec) nonemptyH,
    ← exists_inCell_iff (sortedLT_keySplitpoints vec) nonemptyK]
  constructor
  · rintro ⟨y, x, row, column⟩
    exact ⟨⟨y, row⟩, ⟨x, column⟩⟩
  · rintro ⟨⟨y, row⟩, ⟨x, column⟩⟩
    exact ⟨y, x, row, column⟩

/-- The extreme split values: the least hash value is a `beg` and the greatest an `end`, the
least key value a left key and the greatest a right bound. -/
theorem exists_extremes (proper : ∀ r ∈ vec, r.Proper) (nonemptyH : 0 < (hashSplitpoints vec).length)
    (nonemptyK : 0 < (keySplitpoints vec).length) :
    (∃ r ∈ vec, r.beg = (hashSplitpoints vec)[0]) ∧
      (∃ r ∈ vec, r.«end» = (hashSplitpoints vec)[(hashSplitpoints vec).length - 1]) ∧
      (∃ r ∈ vec, RightBound.bounded r.inner.left = (keySplitpoints vec)[0]) ∧
      (∃ r ∈ vec, r.inner.right = (keySplitpoints vec)[(keySplitpoints vec).length - 1]) := by
  have sortedH := sortedLT_hashSplitpoints vec
  have sortedK := sortedLT_keySplitpoints vec
  have hashes : ∀ r ∈ vec, r.beg < r.«end» := fun r member => (proper r member).beg_lt_end
  have keys : ∀ r ∈ vec, RightBound.bounded r.inner.left < r.inner.right :=
    fun r member => (proper r member).left_lt_right
  have lastH : (hashSplitpoints vec).length - 1 < (hashSplitpoints vec).length := by omega
  have lastK : (keySplitpoints vec).length - 1 < (keySplitpoints vec).length := by omega
  refine ⟨?_, ?_, ?_, ?_⟩
  · exact exists_lower_eq_of_least hashes (mem_splitValues.mp (List.getElem_mem nonemptyH))
      fun w member => getElem_zero_le sortedH nonemptyH (mem_splitValues.mpr member)
  · exact exists_upper_eq_of_greatest hashes (mem_splitValues.mp (List.getElem_mem lastH))
      fun w member => le_getElem_last sortedH nonemptyH (mem_splitValues.mpr member)
  · exact exists_lower_eq_of_least keys (mem_splitValues.mp (List.getElem_mem nonemptyK))
      fun w member => getElem_zero_le sortedK nonemptyK (mem_splitValues.mpr member)
  · exact exists_upper_eq_of_greatest keys (mem_splitValues.mp (List.getElem_mem lastK))
      fun w member => le_getElem_last sortedK nonemptyK (mem_splitValues.mpr member)

section Bounding

variable (proper : ∀ r ∈ vec, r.Proper) (nonempty : vec ≠ [])
include proper nonempty

theorem two_le_length_splitpoints :
    2 ≤ (hashSplitpoints vec).length ∧ 2 ≤ (keySplitpoints vec).length := by
  obtain ⟨r, member⟩ := List.exists_mem_of_ne_nil vec nonempty
  obtain ⟨a, b, c, d, placed⟩ := exists_placed member (proper r member)
  have := placed.beg_lt_end
  have := placed.end_lt
  have := placed.left_lt_right
  have := placed.right_lt
  omega

/-- **The joined region is the bounding rectangle** of the grid. -/
theorem joinedRegion_eq :
    ∃ out, joinedRegion (hashSplitpoints vec) (keySplitpoints vec) = some out ∧ out.Proper ∧
      ∀ p, p ∈ out.points ↔ InGrid vec p := by
  obtain ⟨twoH, twoK⟩ := two_le_length_splitpoints proper nonempty
  have sortedH := sortedLT_hashSplitpoints vec
  have sortedK := sortedLT_keySplitpoints vec
  have hashesBelow : (hashSplitpoints vec)[0] <
      (hashSplitpoints vec)[(hashSplitpoints vec).length - 1] :=
    (getElem_lt_getElem_iff sortedH _ _).mpr (by omega)
  have keysBelow : (keySplitpoints vec)[0] <
      (keySplitpoints vec)[(keySplitpoints vec).length - 1] :=
    (getElem_lt_getElem_iff sortedK _ _).mpr (by omega)
  have headEq : (hashSplitpoints vec).headD 0 = (hashSplitpoints vec)[0] := by
    simp [List.getElem?_eq_getElem (show 0 < (hashSplitpoints vec).length by omega),
      List.head?_eq_getElem?]
  have lastEq : (hashSplitpoints vec).getLastD 0 =
      (hashSplitpoints vec)[(hashSplitpoints vec).length - 1] := by
    simp [List.getLast?_eq_getElem?,
      List.getElem?_eq_getElem
        (show (hashSplitpoints vec).length - 1 < (hashSplitpoints vec).length by omega)]
  have keyHead : (keySplitpoints vec).head? = some (keySplitpoints vec)[0] := by
    rw [List.head?_eq_getElem?, List.getElem?_eq_getElem]
  have keyLast : (keySplitpoints vec).getLast? =
      some (keySplitpoints vec)[(keySplitpoints vec).length - 1] := by
    rw [List.getLast?_eq_getElem?, List.getElem?_eq_getElem]
  -- The least key split value is below another, so it is a key.
  cases first : (keySplitpoints vec)[0] with
  | unbounded =>
      rw [first] at keysBelow
      exact absurd keysBelow (RightBound.not_unbounded_lt _)
  | bounded outLeft =>
      rw [first] at keysBelow
      have inner : joinedRegion (hashSplitpoints vec) (keySplitpoints vec) =
          make (hashSplitpoints vec)[0] (hashSplitpoints vec)[(hashSplitpoints vec).length - 1]
            ⟨outLeft, (keySplitpoints vec)[(keySplitpoints vec).length - 1]⟩ := by
        simp only [joinedRegion, keyHead, keyLast, first, headEq, lastEq]
        cases (keySplitpoints vec)[(keySplitpoints vec).length - 1] <;> rfl
      have wellFormed : (⟨outLeft, (keySplitpoints vec)[(keySplitpoints vec).length - 1]⟩ :
          KeyRange).WellFormed := keysBelow.le
      have nonemptyInner := (KeyRange.isEmpty_eq_false_iff wellFormed).mpr keysBelow
      -- The last hash split value is the end of a region, so within the hash values.
      have endLe : (hashSplitpoints vec)[(hashSplitpoints vec).length - 1] ≤ hashRegionHashSize := by
        obtain ⟨r, member, same⟩ := (exists_extremes proper (by omega) (by omega)).2.1
        rw [← same]
        exact (proper r member).end_le
      refine ⟨_, inner.trans (make_eq_some hashesBelow nonemptyInner),
        ⟨hashesBelow, endLe, wellFormed, nonemptyInner⟩, fun p => ?_⟩
      rw [inGrid_iff (by omega) (by omega), mem_points_iff, first, RightBound.bounded_le_bounded]

/-- **The union is a rectangle exactly when it is the bounding rectangle**: a rectangle that
holds the regions holds their extreme corners, and so the whole grid. -/
theorem isRectangle_iff :
    IsRectangle (unionPoints vec) ↔ ∀ p, InGrid vec p ↔ p ∈ unionPoints vec := by
  obtain ⟨twoH, twoK⟩ := two_le_length_splitpoints proper nonempty
  constructor
  · rintro ⟨rect, rectEq⟩ p
    constructor
    · intro inGrid
      have inRect : ∀ r ∈ vec, ∀ q ∈ r.points, (rect.beg ≤ q.1 ∧ q.1 < rect.«end») ∧
          (rect.inner.left ≤ q.2 ∧ RightBound.bounded q.2 < rect.inner.right) := by
        intro r member q inside
        rw [← mem_points_iff, rectEq]
        exact ⟨r, member, inside⟩
      obtain ⟨⟨low, high⟩, keyLow, keyHigh⟩ := (inGrid_iff (by omega) (by omega)).mp inGrid
      obtain ⟨⟨r0, member0, beg0⟩, ⟨r1, member1, end1⟩, ⟨r2, member2, left2⟩, ⟨r3, member3, right3⟩⟩ :=
        exists_extremes proper (by omega) (by omega)
      have proper0 := proper r0 member0
      have proper1 := proper r1 member1
      have proper2 := proper r2 member2
      have proper3 := proper r3 member3
      -- The corners of the extreme regions that bound `p`.
      have corner0 := inRect r0 member0 (r0.beg, r0.inner.left)
        (mem_points_iff.mpr ⟨⟨le_rfl, proper0.beg_lt_end⟩, le_rfl, proper0.left_lt_right⟩)
      have corner1 := inRect r1 member1 (r1.«end» - 1, r1.inner.left)
        (mem_points_iff.mpr ⟨⟨by have := proper1.beg_lt_end; omega,
          by have := proper1.beg_lt_end; omega⟩, le_rfl, proper1.left_lt_right⟩)
      have corner2 := inRect r2 member2 (r2.beg, r2.inner.left)
        (mem_points_iff.mpr ⟨⟨le_rfl, proper2.beg_lt_end⟩, le_rfl, proper2.left_lt_right⟩)
      have keyBelow3 : RightBound.bounded (max p.2 r3.inner.left) < r3.inner.right := by
        rcases max_choice p.2 r3.inner.left with same | same
        · rw [same, right3]
          exact keyHigh
        · rw [same]
          exact proper3.left_lt_right
      have corner3 := inRect r3 member3 (r3.beg, max p.2 r3.inner.left)
        (mem_points_iff.mpr ⟨⟨le_rfl, proper3.beg_lt_end⟩, le_max_right _ _, keyBelow3⟩)
      rw [← rectEq, mem_points_iff]
      refine ⟨⟨?_, ?_⟩, ?_, ?_⟩
      · calc rect.beg ≤ r0.beg := corner0.1.1
          _ = (hashSplitpoints vec)[0] := beg0
          _ ≤ p.1 := low
      · calc p.1 ≤ r1.«end» - 1 := by omega
          _ < rect.«end» := corner1.1.2
      · calc rect.inner.left ≤ r2.inner.left := corner2.2.1
          _ ≤ p.2 := RightBound.bounded_le_bounded.mp (left2 ▸ keyLow)
      · calc RightBound.bounded p.2 ≤ .bounded (max p.2 r3.inner.left) :=
            RightBound.bounded_le_bounded.mpr (le_max_left _ _)
          _ < rect.inner.right := corner3.2.2
    · rintro ⟨r, member, inside⟩
      obtain ⟨a, b, c, d, placed⟩ := exists_placed member (proper r member)
      exact placed.exists_cells inside
  · intro same
    obtain ⟨out, _, _, outPoints⟩ := joinedRegion_eq proper nonempty
    exact ⟨out, Set.ext fun p => (outPoints p).trans (same p)⟩

end Bounding

/-- With no cell met twice, the count of marked cells falls short of the grid exactly when
the regions do not cover the bounding rectangle. -/
theorem length_flatMap_blockCells_lt_iff (proper : ∀ r ∈ vec, r.Proper)
    (nodup : (vec.flatMap fun r => blockCells (hashSplitpoints vec) (keySplitpoints vec)
      ((keySplitpoints vec).length - 1) r).Nodup) :
    (vec.flatMap fun r => blockCells (hashSplitpoints vec) (keySplitpoints vec)
        ((keySplitpoints vec).length - 1) r).length <
      ((keySplitpoints vec).length - 1) * ((hashSplitpoints vec).length - 1) ↔
      ¬∀ p, InGrid vec p ↔ p ∈ unionPoints vec := by
  have below : ∀ ix ∈ (vec.flatMap fun r => blockCells (hashSplitpoints vec)
      (keySplitpoints vec) ((keySplitpoints vec).length - 1) r).toFinset,
      ix < ((keySplitpoints vec).length - 1) * ((hashSplitpoints vec).length - 1) := by
    intro ix member
    obtain ⟨r, memberR, inBlock⟩ := List.mem_flatMap.mp (List.mem_toFinset.mp member)
    exact blockCells_lt proper memberR inBlock
  rw [← List.toFinset_card_of_nodup nodup, card_lt_iff_exists_notMem below,
    ← covers_grid_iff proper]
  simp only [List.mem_toFinset, List.mem_flatMap, not_forall, not_exists, not_and]
  constructor
  · rintro ⟨ix, bound, missing⟩
    exact ⟨ix, bound, missing⟩
  · rintro ⟨ix, bound, missing⟩
    exact ⟨ix, bound, missing⟩

end Grid

/-- `guarantee(granular_width < INT_MAX / granular_height)`: the grid fits the code's `int`
arithmetic. -/
def GridFits (vec : List HashRegion) : Prop :=
  (keySplitpoints vec).length - 1 < intMax / ((hashSplitpoints vec).length - 1)

instance (vec : List HashRegion) : Decidable (GridFits vec) := by
  unfold GridFits
  infer_instance

section Fits

variable {vec : List HashRegion} (proper : ∀ r ∈ vec, r.Proper) (nonempty : vec ≠ [])
include proper nonempty

/-- Regions with points get past the guarantee only when their grid fits. -/
theorem gridFits_of_regionJoin_eq_some {result : RegionJoinResult}
    (eq : regionJoin vec = some result) : GridFits vec := by
  obtain ⟨twoH, twoK⟩ := two_le_length_splitpoints proper nonempty
  have wide : ¬((keySplitpoints vec).length - 1 = 0 ∨ (hashSplitpoints vec).length - 1 = 0) := by
    omega
  simp only [regionJoin] at eq
  rw [if_neg wide] at eq
  split at eq
  · assumption
  · cases eq

/-- **A grid with no more split values fits**: regions whose bounds are all images of the
bounds of regions whose grid fits. -/
theorem GridFits.of_boundedBy {vec₀ : List HashRegion} (fits : GridFits vec₀)
    (f : Nat → Nat) (g : RightBound → RightBound)
    (bounded : ∀ r ∈ vec, BoundedBy (f '' {h | h ∈ vec₀.flatMap fun r => [r.beg, r.«end»]})
      (g '' {k | k ∈ vec₀.flatMap fun r => [RightBound.bounded r.inner.left, r.inner.right]}) r) :
    GridFits vec := by
  have heights : (hashSplitpoints vec).length ≤ (hashSplitpoints vec₀).length := by
    apply length_splitValues_le_of_image f
    intro h member
    obtain ⟨r, memberR, bound⟩ := List.mem_flatMap.mp member
    have boundedR := bounded r memberR
    rcases List.mem_pair.mp bound with rfl | rfl
    · exact boundedR.beg_mem
    · exact boundedR.end_mem
  have widths : (keySplitpoints vec).length ≤ (keySplitpoints vec₀).length := by
    apply length_splitValues_le_of_image g
    intro k member
    obtain ⟨r, memberR, bound⟩ := List.mem_flatMap.mp member
    have boundedR := bounded r memberR
    rcases List.mem_pair.mp bound with rfl | rfl
    · exact boundedR.left_mem
    · exact boundedR.right_mem
  have twoH := (two_le_length_splitpoints proper nonempty).1
  unfold GridFits at fits ⊢
  calc (keySplitpoints vec).length - 1 ≤ (keySplitpoints vec₀).length - 1 := by omega
    _ < intMax / ((hashSplitpoints vec₀).length - 1) := fits
    _ ≤ intMax / ((hashSplitpoints vec).length - 1) := Nat.div_le_div_left (by omega) (by omega)

end Fits

open Classical in
/-- **What `region_join` returns** for regions with points whose grid fits. -/
theorem regionJoin_eq {vec : List HashRegion} (proper : ∀ r ∈ vec, r.Proper)
    (nonempty : vec ≠ []) (fits : GridFits vec) :
    regionJoin vec =
      if vec.Pairwise (fun r s => Disjoint r.points s.points) then
        if ∀ p, InGrid vec p ↔ p ∈ unionPoints vec then
          (joinedRegion (hashSplitpoints vec) (keySplitpoints vec)).map .ok
        else some .badRegion
      else some .badJoin := by
  obtain ⟨twoH, twoK⟩ := two_le_length_splitpoints proper nonempty
  have wide : ¬((keySplitpoints vec).length - 1 = 0 ∨ (hashSplitpoints vec).length - 1 = 0) := by
    omega
  have loop := foldlM_markCells (fun r => blockCells (hashSplitpoints vec) (keySplitpoints vec)
    ((keySplitpoints vec).length - 1) r) vec (∅, 0)
  rw [markCells_eq] at loop
  unfold GridFits at fits
  simp only [regionJoin]
  rw [if_neg wide, if_pos fits, loop]
  by_cases disjoint : vec.Pairwise fun r s => Disjoint r.points s.points
  · have nodup := (nodup_flatMap_blockCells_iff proper).mpr disjoint
    have fresh : ∀ ix ∈ (vec.flatMap fun r => blockCells (hashSplitpoints vec)
        (keySplitpoints vec) ((keySplitpoints vec).length - 1) r), ix ∉ (∅ : Finset Nat) :=
      fun ix _ => Finset.notMem_empty ix
    rw [if_pos ⟨nodup, fresh⟩, if_pos disjoint, Nat.zero_add]
    dsimp only
    by_cases covers : ∀ p, InGrid vec p ↔ p ∈ unionPoints vec
    · rw [if_pos covers,
        if_neg fun short => (length_flatMap_blockCells_lt_iff proper nodup).mp short covers]
    · rw [if_neg covers, if_pos ((length_flatMap_blockCells_lt_iff proper nodup).mpr covers)]
  · have repeated : ¬((vec.flatMap fun r => blockCells (hashSplitpoints vec)
        (keySplitpoints vec) ((keySplitpoints vec).length - 1) r).Nodup ∧
        ∀ ix ∈ (vec.flatMap fun r => blockCells (hashSplitpoints vec)
          (keySplitpoints vec) ((keySplitpoints vec).length - 1) r), ix ∉ (∅ : Finset Nat)) :=
      fun both => disjoint ((nodup_flatMap_blockCells_iff proper).mp both.1)
    rw [if_neg repeated, if_neg disjoint]

theorem regionJoin_nil : regionJoin [] = some (.ok empty) := rfl

section Ok

variable {vec : List HashRegion} (proper : ∀ r ∈ vec, r.Proper) (nonempty : vec ≠ [])
include proper nonempty

/-- **What `REGION_JOIN_OK` says**: the regions are disjoint and `out` is their union. -/
theorem regionJoin_eq_ok {out : HashRegion} (eq : regionJoin vec = some (.ok out)) :
    vec.Pairwise (fun r s => Disjoint r.points s.points) ∧ out.Proper ∧
      out.points = unionPoints vec := by
  obtain ⟨joined, joinedEq, joinedProper, joinedPoints⟩ := joinedRegion_eq proper nonempty
  rw [regionJoin_eq proper nonempty (gridFits_of_regionJoin_eq_some proper nonempty eq)] at eq
  by_cases disjoint : vec.Pairwise fun r s => Disjoint r.points s.points
  · by_cases covers : ∀ p, InGrid vec p ↔ p ∈ unionPoints vec
    · rw [if_pos disjoint, if_pos covers, joinedEq] at eq
      have same : joined = out := by simpa using eq
      subst same
      exact ⟨disjoint, joinedProper, Set.ext fun p => (joinedPoints p).trans (covers p)⟩
    · rw [if_pos disjoint, if_neg covers] at eq
      simp at eq
  · rw [if_neg disjoint] at eq
    simp at eq

/-- **Disjoint regions whose union is a proper region join to it**, where the grid fits. -/
theorem regionJoin_eq_ok_of_union {out : HashRegion} (fits : GridFits vec)
    (disjoint : vec.Pairwise fun r s => Disjoint r.points s.points) (outProper : out.Proper)
    (union : out.points = unionPoints vec) : regionJoin vec = some (.ok out) := by
  obtain ⟨joined, joinedEq, joinedProper, joinedPoints⟩ := joinedRegion_eq proper nonempty
  have covers : ∀ p, InGrid vec p ↔ p ∈ unionPoints vec :=
    (isRectangle_iff proper nonempty).mp ⟨out, union⟩
  have same : joined = out := by
    apply Proper.ext_points joinedProper outProper
    rw [union]
    exact Set.ext fun p => (joinedPoints p).trans (covers p)
  rw [regionJoin_eq proper nonempty fits, if_pos disjoint, if_pos covers, joinedEq, same]
  rfl

end Ok

/-- **`region_join` decides exact tiling.**  For regions with points whose grid fits the
code's guarantee, `region_join` returns `REGION_JOIN_OK` exactly when the regions are
pairwise disjoint and their union is one rectangle, and then `out` holds exactly the points
of the regions; it returns `REGION_JOIN_BAD_JOIN` exactly when two regions overlap, and
`REGION_JOIN_BAD_REGION` exactly when they are disjoint but their union is no rectangle. -/
theorem region_join_decides_tiling (vec : List HashRegion) (proper : ∀ r ∈ vec, r.Proper)
    (fits : vec ≠ [] → GridFits vec) :
    ∃ result, regionJoin vec = some result ∧
      ((∃ out, result = .ok out) ↔
        vec.Pairwise (fun r s => Disjoint r.points s.points) ∧ IsRectangle (unionPoints vec)) ∧
      (∀ out, result = .ok out → out.points = unionPoints vec) ∧
      (result = .badJoin ↔ ¬vec.Pairwise fun r s => Disjoint r.points s.points) ∧
      (result = .badRegion ↔
        vec.Pairwise (fun r s => Disjoint r.points s.points) ∧ ¬IsRectangle (unionPoints vec)) := by
  rcases eq_or_ne vec [] with rfl | nonempty
  · -- No regions: the join is the empty region, whose points are the empty union.
    have union : unionPoints [] = empty.points := by
      rw [points_empty]
      ext p
      simp [unionPoints]
    refine ⟨.ok empty, regionJoin_nil, ?_, ?_, ?_, ?_⟩
    · exact iff_of_true ⟨empty, rfl⟩ ⟨List.Pairwise.nil, empty, union.symm⟩
    · rintro out ⟨⟩
      exact union.symm
    · exact iff_of_false (by simp) (by simp)
    · exact iff_of_false (by simp) fun ⟨_, notRectangle⟩ => notRectangle ⟨empty, union.symm⟩
  · obtain ⟨out, joined, _, outPoints⟩ := joinedRegion_eq proper nonempty
    rw [regionJoin_eq proper nonempty (fits nonempty)]
    by_cases disjoint : vec.Pairwise fun r s => Disjoint r.points s.points
    · by_cases covers : ∀ p, InGrid vec p ↔ p ∈ unionPoints vec
      · have rectangle := (isRectangle_iff proper nonempty).mpr covers
        rw [if_pos disjoint, if_pos covers, joined]
        refine ⟨.ok out, rfl, iff_of_true ⟨out, rfl⟩ ⟨disjoint, rectangle⟩, ?_,
          iff_of_false (by simp) (not_not.mpr disjoint), iff_of_false (by simp) ?_⟩
        · rintro out' ⟨⟩
          exact Set.ext fun p => (outPoints p).trans (covers p)
        · exact fun ⟨_, notRectangle⟩ => notRectangle rectangle
      · have notRectangle := (not_congr (isRectangle_iff proper nonempty)).mpr covers
        rw [if_pos disjoint, if_neg covers]
        refine ⟨.badRegion, rfl, iff_of_false (by simp) fun both => notRectangle both.2,
          by simp, iff_of_false (by simp) (not_not.mpr disjoint),
          iff_of_true rfl ⟨disjoint, notRectangle⟩⟩
    · rw [if_neg disjoint]
      exact ⟨.badJoin, rfl, iff_of_false (by simp) fun both => disjoint both.1, by simp,
        iff_of_true rfl disjoint, iff_of_false (by simp) fun both => disjoint both.1⟩

/-- Two halves of the hash values, each with every key, join to the rectangle over `[0, 2)`. -/
theorem region_join_two_halves :
    ∃ result, regionJoin [⟨0, 1, KeyRange.universe⟩, ⟨1, 2, KeyRange.universe⟩] = some result ∧
      ((∃ out, result = .ok out) ↔
        [(⟨0, 1, KeyRange.universe⟩ : HashRegion), ⟨1, 2, KeyRange.universe⟩].Pairwise
          (fun r s => Disjoint r.points s.points) ∧
        IsRectangle (unionPoints [⟨0, 1, KeyRange.universe⟩, ⟨1, 2, KeyRange.universe⟩])) ∧
      (∀ out, result = .ok out →
        out.points = unionPoints [⟨0, 1, KeyRange.universe⟩, ⟨1, 2, KeyRange.universe⟩]) ∧
      (result = .badJoin ↔
        ¬[(⟨0, 1, KeyRange.universe⟩ : HashRegion), ⟨1, 2, KeyRange.universe⟩].Pairwise
          fun r s => Disjoint r.points s.points) ∧
      (result = .badRegion ↔
        [(⟨0, 1, KeyRange.universe⟩ : HashRegion), ⟨1, 2, KeyRange.universe⟩].Pairwise
          (fun r s => Disjoint r.points s.points) ∧
        ¬IsRectangle (unionPoints [⟨0, 1, KeyRange.universe⟩, ⟨1, 2, KeyRange.universe⟩])) :=
  region_join_decides_tiling _
    (by
      intro r member
      simp only [List.mem_cons, List.not_mem_nil, or_false] at member
      rcases member with rfl | rfl
      all_goals exact ⟨by decide, by decide, RightBound.le_unbounded _, rfl⟩)
    (fun _ => by decide)

/-! ## A staircase the grid cannot hold -/

/-- The key `[j / 256, j % 256]`. -/
def stairKey (j : Nat) : StoreKey :=
  ⟨[(j / 256).toUInt8, (j % 256).toUInt8], by simp [maxKeySize]⟩

/-- Step `i` of a staircase: the hash values `[2i, 2i + 1)` times the keys from
`stairKey (2i)` to `stairKey (2i + 1)`. -/
def stairStep (i : Nat) : HashRegion :=
  ⟨2 * i, 2 * i + 1, ⟨stairKey (2 * i), .bounded (stairKey (2 * i + 1))⟩⟩

/-- A staircase of `n` steps: no two share a hash value or a key bound. -/
def staircase (n : Nat) : List HashRegion := (List.range n).map stairStep

theorem stairKey_injective {i j : Nat} (small : i < 65536) (small' : j < 65536)
    (same : stairKey i = stairKey j) : i = j := by
  have contents := congrArg StoreKey.contents same
  simp only [stairKey, List.cons.injEq, and_true] at contents
  have high := congrArg UInt8.toNat contents.1
  have low := congrArg UInt8.toNat contents.2
  simp only [Nat.toUInt8_eq, UInt8.toNat_ofNat', Nat.reducePow] at high low
  omega

theorem stairKey_lt_succ (i : Nat) : stairKey (2 * i) < stairKey (2 * i + 1) := by
  show (stairKey (2 * i)).contents < (stairKey (2 * i + 1)).contents
  have sameHigh : 2 * i / 256 = (2 * i + 1) / 256 := by omega
  simp only [stairKey, sameHigh]
  rw [List.cons_lt_cons_iff]
  refine Or.inr ⟨rfl, ?_⟩
  rw [List.cons_lt_cons_iff]
  refine Or.inl ?_
  rw [UInt8.lt_iff_toNat_lt]
  simp only [Nat.toUInt8_eq, UInt8.toNat_ofNat', Nat.reducePow]
  omega

theorem proper_stairStep {i : Nat} (small : 2 * i + 1 < 65536) : (stairStep i).Proper := by
  have ordered := stairKey_lt_succ i
  refine ⟨by simp [stairStep], by show 2 * i + 1 ≤ 2 ^ 63; omega,
    RightBound.bounded_le_bounded.mpr ordered.le, ?_⟩
  simp [stairStep, KeyRange.isEmpty, ordered.ne]

theorem staircase_pairwise_disjoint (n : Nat) :
    (staircase n).Pairwise fun r s => Disjoint r.points s.points := by
  rw [staircase, List.pairwise_map]
  apply List.pairwise_lt_range.imp
  intro i j before
  refine Set.disjoint_left.mpr fun p inI inJ => ?_
  rw [mem_points_iff] at inI inJ
  simp only [stairStep] at inI inJ
  omega

theorem flatMap_hashes_staircase :
    ∀ n, (staircase n).flatMap (fun r => [r.beg, r.«end»]) = List.range (2 * n)
  | 0 => rfl
  | n + 1 => by
      rw [staircase, List.range_succ, List.map_append, List.flatMap_append, ← staircase,
        flatMap_hashes_staircase n, show 2 * (n + 1) = 2 * n + 1 + 1 by ring,
        List.range_succ, List.range_succ]
      simp [stairStep]

theorem flatMap_keys_staircase :
    ∀ n, (staircase n).flatMap (fun r => [RightBound.bounded r.inner.left, r.inner.right]) =
      (List.range (2 * n)).map fun j => .bounded (stairKey j)
  | 0 => rfl
  | n + 1 => by
      rw [staircase, List.range_succ, List.map_append, List.flatMap_append, ← staircase,
        flatMap_keys_staircase n, show 2 * (n + 1) = 2 * n + 1 + 1 by ring,
        List.range_succ, List.range_succ]
      simp [stairStep]

theorem length_hashSplitpoints_staircase (n : Nat) :
    (hashSplitpoints (staircase n)).length = 2 * n := by
  rw [hashSplitpoints, flatMap_hashes_staircase, length_splitValues_of_nodup List.nodup_range,
    List.length_range]

theorem length_keySplitpoints_staircase {n : Nat} (small : 2 * n ≤ 65536) :
    (keySplitpoints (staircase n)).length = 2 * n := by
  have distinct : ((List.range (2 * n)).map fun j => RightBound.bounded (stairKey j)).Nodup := by
    apply List.Nodup.map_on _ List.nodup_range
    intro i memberI j memberJ same
    rw [List.mem_range] at memberI memberJ
    exact stairKey_injective (by omega) (by omega) (RightBound.bounded.inj same)
  rw [keySplitpoints, flatMap_keys_staircase, length_splitValues_of_nodup distinct,
    List.length_map, List.length_range]

/-- **A staircase of 23171 disjoint regions stops `region_join`.**  Its 46342 distinct hash
values and as many distinct keys make a grid of 46341 rows and 46341 columns, and
`INT_MAX / 46341 = 46340`: `guarantee(granular_width < INT_MAX / granular_height)` fails. -/
theorem region_join_staircase_fails :
    (∀ r ∈ staircase 23171, r.Proper) ∧
      (staircase 23171).Pairwise (fun r s => Disjoint r.points s.points) ∧
      regionJoin (staircase 23171) = none := by
  refine ⟨?_, staircase_pairwise_disjoint 23171, ?_⟩
  · intro r member
    obtain ⟨i, bound, rfl⟩ := List.mem_map.mp member
    rw [List.mem_range] at bound
    exact proper_stairStep (by omega)
  · simp only [regionJoin, length_hashSplitpoints_staircase,
      length_keySplitpoints_staircase (show 2 * 23171 ≤ 65536 by norm_num)]
    rw [if_neg (by decide), if_neg (by decide)]

end Region
end RethinkDB
