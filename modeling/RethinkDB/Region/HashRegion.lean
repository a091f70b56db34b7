import Mathlib
import RethinkDB.Region.KeyRegion

/-!
# Hash regions and their subtraction

`hash_region_t<key_range_t>` (`region/hash_region.hpp`) is a rectangle: the hash values
`[beg, end)` times a key range.  A point is a hash value and a key
(`region_contains_key_with_precomputed_hash`).  The class comment asks for `beg < end`
unless both are `0`, and the constructor guarantees `beg < end` and a non-empty key range;
a failed guarantee stops the server and is `none` here.

`region_subtract_many` cuts every piece against one subtrahend after another.  One cut is
the source's "subtraction drawing": `x` below and `z` above the subtrahend's hash values,
and over the common hash values the key ranges `l` and `r` outside the subtrahend's keys.
From a minuend with points, the result partitions the minuend's points outside every
subtrahend (`region_subtract_many_partitions`).  From the empty minuend it returns the empty
region itself, or stops at the constructor of `x`.
-/

namespace RethinkDB
namespace Region

open Btree Partition

/-- `HASH_REGION_HASH_SIZE`. -/
def hashRegionHashSize : Nat := 2 ^ 63

/-- `hash_region_t<key_range_t>`. -/
structure HashRegion where
  beg : Nat
  «end» : Nat
  inner : KeyRange
  deriving DecidableEq

/-- `region_is_empty`. -/
def regionIsEmpty (r : HashRegion) : Bool :=
  r.beg == r.«end» || r.inner.isEmpty

/-- `region_contains_key_with_precomputed_hash`. -/
def regionContainsKeyWithPrecomputedHash (region : HashRegion) (key : StoreKey)
    (hashValue : Nat) : Bool :=
  if region.beg ≤ hashValue ∧ hashValue < region.«end» then region.inner.containsKey key
  else false

/-- `region_is_superset`. -/
def regionIsSuperset (potentialSuperset potentialSubset : HashRegion) : Bool :=
  regionIsEmpty potentialSubset ||
    (decide (potentialSuperset.beg ≤ potentialSubset.beg) &&
      decide (potentialSuperset.«end» ≥ potentialSubset.«end») &&
      potentialSuperset.inner.isSuperset potentialSubset.inner)

/-- `region_overlaps`. -/
def regionOverlaps (r1 r2 : HashRegion) : Bool :=
  decide (r1.beg < r2.«end») && decide (r2.beg < r1.«end») && r1.inner.overlaps r2.inner

namespace HashRegion

/-- `hash_region_t()`, the empty region. -/
def empty : HashRegion := ⟨0, 0, KeyRange.empty⟩

/-- The constructor `hash_region_t(beg, end, inner)`. -/
def make (beg «end» : Nat) (inner : KeyRange) : Option HashRegion :=
  if beg < «end» ∧ inner.isEmpty = false then some ⟨beg, «end», inner⟩ else none

/-- `hash_region_t::universe()`. -/
def «universe» : HashRegion := ⟨0, hashRegionHashSize, KeyRange.universe⟩

/-- The points `(hash value, key)` of a region. -/
def points (r : HashRegion) : Set (Nat × StoreKey) :=
  {p | regionContainsKeyWithPrecomputedHash r p.2 p.1 = true}

/-- A region with points, as the constructor builds it: within the hash values, and with a
well-formed, non-empty key range. -/
structure Proper (r : HashRegion) : Prop where
  beg_lt_end : r.beg < r.«end»
  end_le : r.«end» ≤ hashRegionHashSize
  inner_wellFormed : r.inner.WellFormed
  inner_nonempty : r.inner.isEmpty = false

/-- What a subtrahend needs: hash values not reversed, and a well-formed key range under
hash values that are not empty.  The empty region and every `Proper` one have it. -/
structure WellFormed (r : HashRegion) : Prop where
  beg_le_end : r.beg ≤ r.«end»
  inner_wellFormed : r.beg < r.«end» → r.inner.WellFormed

theorem Proper.wellFormed {r : HashRegion} (proper : r.Proper) : r.WellFormed :=
  ⟨proper.beg_lt_end.le, fun _ => proper.inner_wellFormed⟩

theorem wellFormed_empty : empty.WellFormed :=
  ⟨le_rfl, fun _ => KeyRange.wellFormed_empty⟩

theorem Proper.regionIsEmpty_eq_false {r : HashRegion} (proper : r.Proper) :
    regionIsEmpty r = false := by
  simp [regionIsEmpty, proper.beg_lt_end.ne, proper.inner_nonempty]

theorem Proper.left_lt_right {r : HashRegion} (proper : r.Proper) :
    RightBound.bounded r.inner.left < r.inner.right :=
  (KeyRange.isEmpty_eq_false_iff proper.inner_wellFormed).mp proper.inner_nonempty

theorem points_eq (r : HashRegion) : r.points = Set.Ico r.beg r.«end» ×ˢ r.inner.keys := by
  ext ⟨hashValue, key⟩
  simp only [points, regionContainsKeyWithPrecomputedHash, Set.mem_ofPred_eq, Set.mem_prod,
    Set.mem_Ico, KeyRange.keys]
  split <;> simp_all

theorem mem_points_iff {r : HashRegion} {p : Nat × StoreKey} :
    p ∈ r.points ↔ (r.beg ≤ p.1 ∧ p.1 < r.«end») ∧
      (r.inner.left ≤ p.2 ∧ RightBound.bounded p.2 < r.inner.right) := by
  rw [points_eq, Set.mem_prod, Set.mem_Ico, KeyRange.mem_keys]

theorem make_eq_some {beg «end» : Nat} {inner : KeyRange} (lt : beg < «end»)
    (nonempty : inner.isEmpty = false) : make beg «end» inner = some ⟨beg, «end», inner⟩ := by
  simp [make, lt, nonempty]

theorem mapM_make {beg «end» : Nat} (lt : beg < «end») :
    ∀ {ranges : List KeyRange}, (∀ r ∈ ranges, r.isEmpty = false) →
      ranges.mapM (make beg «end») = some (ranges.map fun inner => ⟨beg, «end», inner⟩)
  | [], _ => rfl
  | r :: rest, nonempty => by
      rw [List.mapM_cons, make_eq_some lt (nonempty r (List.mem_cons_self ..)),
        mapM_make lt fun r' member => nonempty r' (List.mem_cons_of_mem r member)]
      rfl

theorem Proper.corner_mem {r : HashRegion} (proper : r.Proper) : (r.beg, r.inner.left) ∈ r.points :=
  mem_points_iff.mpr ⟨⟨le_rfl, proper.beg_lt_end⟩, le_rfl, proper.left_lt_right⟩

theorem Proper.top_corner_mem {r : HashRegion} (proper : r.Proper) :
    (r.«end» - 1, r.inner.left) ∈ r.points := by
  have := proper.beg_lt_end
  exact mem_points_iff.mpr ⟨⟨by omega, by omega⟩, le_rfl, proper.left_lt_right⟩

/-- **A region with points is determined by its points.** -/
theorem Proper.ext_points {r r' : HashRegion} (proper : r.Proper) (proper' : r'.Proper)
    (same : r.points = r'.points) : r = r' := by
  -- The corners of each region lie in the other.
  have corners : ∀ {a b : HashRegion}, a.Proper → a.points = b.points →
      b.beg ≤ a.beg ∧ b.inner.left ≤ a.inner.left ∧ a.«end» ≤ b.«end» := by
    intro a b properA sameAB
    have low := mem_points_iff.mp (sameAB ▸ properA.corner_mem)
    have high := mem_points_iff.mp (sameAB ▸ properA.top_corner_mem)
    have := properA.beg_lt_end
    exact ⟨low.1.1, low.2.1, by omega⟩
  obtain ⟨beg, left, stop⟩ := corners proper same
  obtain ⟨beg', left', stop'⟩ := corners proper' same.symm
  -- With the same left key, a lower right bound would leave out a key of the other region.
  have right : ∀ {a b : HashRegion}, a.Proper → b.Proper → a.points = b.points →
      a.beg = b.beg → a.inner.left = b.inner.left → b.inner.right ≤ a.inner.right := by
    intro a b properA properB sameAB begSame leftSame
    by_contra above
    rw [not_le] at above
    cases aRight : a.inner.right with
    | unbounded =>
        rw [aRight] at above
        exact RightBound.not_unbounded_lt _ above
    | bounded key =>
        have leftBelow := properA.left_lt_right
        rw [aRight, RightBound.bounded_lt_bounded] at leftBelow
        rw [aRight] at above
        have inB : (b.beg, key) ∈ b.points :=
          mem_points_iff.mpr ⟨⟨le_rfl, properB.beg_lt_end⟩, leftSame ▸ leftBelow.le, above⟩
        have inA := mem_points_iff.mp (sameAB.symm ▸ inB)
        rw [aRight] at inA
        exact lt_irrefl _ inA.2.2
  have begEq : r.beg = r'.beg := le_antisymm beg' beg
  have leftEq : r.inner.left = r'.inner.left := le_antisymm left' left
  have rightEq : r.inner.right = r'.inner.right :=
    le_antisymm (right proper' proper same.symm begEq.symm leftEq.symm)
      (right proper proper' same begEq leftEq)
  obtain ⟨beg₁, end₁, left₁, right₁⟩ := r
  obtain ⟨beg₂, end₂, left₂, right₂⟩ := r'
  simp only [HashRegion.mk.injEq, KeyRange.mk.injEq] at begEq leftEq rightEq ⊢
  exact ⟨begEq, le_antisymm stop stop', leftEq, rightEq⟩

/-- The class invariant of `hash_region_t`, `beg < end` unless both are `0`, with the
`rassert` of `key_range_t`. -/
structure Valid (r : HashRegion) : Prop where
  beg_lt_end_or_zero : r.beg < r.«end» ∨ r.beg = 0 ∧ r.«end» = 0
  inner_wellFormed : r.inner.WellFormed

theorem Proper.valid {r : HashRegion} (proper : r.Proper) : r.Valid :=
  ⟨Or.inl proper.beg_lt_end, proper.inner_wellFormed⟩

theorem valid_empty : empty.Valid :=
  ⟨Or.inr ⟨rfl, rfl⟩, KeyRange.wellFormed_empty⟩

theorem points_empty : empty.points = ∅ := by
  ext p
  simp [mem_points_iff, empty]

/-- Every region within the hash values lies in the universe. -/
theorem points_subset_universe {r : HashRegion} (end_le : r.«end» ≤ hashRegionHashSize) :
    r.points ⊆ «universe».points := by
  intro p inside
  rw [mem_points_iff] at inside
  rw [mem_points_iff]
  refine ⟨⟨Nat.zero_le _, inside.1.2.trans_le end_le⟩, StoreKey.min_le _, ?_⟩
  exact RightBound.bounded_lt_unbounded _

end HashRegion

/-- `region_intersection`. -/
def regionIntersection (r1 r2 : HashRegion) : Option HashRegion :=
  if r1.«end» ≤ r2.beg ∨ r2.«end» ≤ r1.beg then some HashRegion.empty
  else
    let innerIntersection := r1.inner.intersection r2.inner
    if innerIntersection.isEmpty then some HashRegion.empty
    else HashRegion.make (max r1.beg r2.beg) (min r1.«end» r2.«end») innerIntersection

open HashRegion

section Intersection

variable {r1 r2 : HashRegion}

/-- The rectangle of the common points of two regions. -/
def commonRectangle (r1 r2 : HashRegion) : HashRegion :=
  ⟨max r1.beg r2.beg, min r1.«end» r2.«end», r1.inner.intersection r2.inner⟩

theorem points_commonRectangle : (commonRectangle r1 r2).points = r1.points ∩ r2.points := by
  ext p
  rw [Set.mem_inter_iff, points_eq, points_eq, points_eq]
  simp only [commonRectangle, KeyRange.keys_intersection, Set.mem_prod,
    Set.mem_Ico, Set.mem_inter_iff, max_le_iff, lt_min_iff]
  tauto

/-- **`region_intersection` keeps the common points**: it returns the empty region when there
are none, and otherwise their rectangle, which has points. -/
theorem regionIntersection_cases (proper : r1.Proper) (valid : r2.Valid) :
    (regionIntersection r1 r2 = some empty ∧ r1.points ∩ r2.points = ∅) ∨
      (regionIntersection r1 r2 = some (commonRectangle r1 r2) ∧
        (commonRectangle r1 r2).Proper) := by
  have common : (commonRectangle r1 r2).points = r1.points ∩ r2.points := points_commonRectangle
  unfold regionIntersection
  by_cases apart : r1.«end» ≤ r2.beg ∨ r2.«end» ≤ r1.beg
  · refine Or.inl ⟨if_pos apart, ?_⟩
    rw [← common, points_eq, Set.Ico_eq_empty (by simp only [commonRectangle]; omega),
      Set.empty_prod]
  · have hashes : max r1.beg r2.beg < min r1.«end» r2.«end» := by
      have := proper.beg_lt_end
      rcases valid.beg_lt_end_or_zero with _ | ⟨_, _⟩ <;> omega
    have innerWellFormed := KeyRange.wellFormed_intersection proper.inner_wellFormed
      valid.inner_wellFormed
    rw [if_neg apart]
    by_cases innerEmpty : (r1.inner.intersection r2.inner).isEmpty = true
    · refine Or.inl ⟨if_pos innerEmpty, ?_⟩
      rw [← common, points_eq]
      simp only [commonRectangle, KeyRange.keys_eq_empty innerWellFormed innerEmpty,
        Set.prod_empty]
    · have nonempty : (r1.inner.intersection r2.inner).isEmpty = false := by
        simpa using innerEmpty
      refine Or.inr ⟨?_, hashes, (min_le_left _ _).trans proper.end_le, innerWellFormed,
        nonempty⟩
      simp only [nonempty, Bool.false_eq_true, if_false]
      exact make_eq_some hashes nonempty

theorem regionIntersection_empty (r : HashRegion) : regionIntersection r empty = some empty := by
  simp [regionIntersection, empty]

theorem regionIntersection_empty_left (r : HashRegion) :
    regionIntersection empty r = some empty := by
  simp [regionIntersection, empty]

/-- **The intersection of a region with points or the empty region** with a region is a
region that holds exactly the common points: the empty region or one with points. -/
theorem regionIntersection_points (shape : r1 = empty ∨ r1.Proper) (valid : r2.Valid) :
    ∃ r, regionIntersection r1 r2 = some r ∧ (r = empty ∨ r.Proper) ∧
      r.points = r1.points ∩ r2.points := by
  rcases shape with rfl | proper
  · refine ⟨empty, regionIntersection_empty_left r2, Or.inl rfl, ?_⟩
    rw [points_empty, Set.empty_inter]
  · rcases regionIntersection_cases proper valid with ⟨eq, apart⟩ | ⟨eq, commonProper⟩
    · exact ⟨empty, eq, Or.inl rfl, by rw [points_empty, apart]⟩
    · exact ⟨_, eq, Or.inr commonProper, points_commonRectangle⟩

/-- The bounds of a common rectangle with points are those of `r1` clamped to `r2`. -/
theorem clamp_eq_commonRectangle (proper : (commonRectangle r1 r2).Proper) :
    min (max r1.beg r2.beg) r2.«end» = (commonRectangle r1 r2).beg ∧
      min (max r1.«end» r2.beg) r2.«end» = (commonRectangle r1 r2).«end» ∧
      min (max (RightBound.bounded r1.inner.left) (.bounded r2.inner.left)) r2.inner.right =
        .bounded (commonRectangle r1 r2).inner.left ∧
      min (max r1.inner.right (.bounded r2.inner.left)) r2.inner.right =
        (commonRectangle r1 r2).inner.right := by
  have hashes := proper.beg_lt_end
  have keys := proper.left_lt_right
  have inner := KeyRange.intersection_eq_of_nonempty proper.inner_nonempty
  simp only [commonRectangle, inner] at hashes keys ⊢
  have boundedMax : RightBound.bounded (max r1.inner.left r2.inner.left) =
      max (.bounded r1.inner.left) (.bounded r2.inner.left) :=
    Monotone.map_max fun _ _ le => RightBound.bounded_le_bounded.mpr le
  rw [boundedMax] at keys ⊢
  refine ⟨by omega, by omega, min_eq_left (keys.le.trans (min_le_right _ _)), ?_⟩
  rw [max_eq_left ((le_max_right _ _).trans (keys.le.trans (min_le_left _ _)))]

end Intersection

/-! ## Subtraction -/

/-- The source's `isect_beg` after the piece `x`. -/
def isectBeg (m s : HashRegion) : Nat :=
  if m.beg < s.beg then min s.beg m.«end» else max m.beg s.beg

/-- The source's `isect_end` after the piece `z`. -/
def isectEnd (m s : HashRegion) : Nat :=
  if s.«end» < m.«end» then max m.beg s.«end» else min m.«end» s.«end»

/-- The piece `x` of the drawing: `m` below the subtrahend's hash values. -/
def pieceBelow (m s : HashRegion) : Option (List HashRegion) :=
  if m.beg < s.beg then (fun x => [x]) <$> make m.beg (isectBeg m s) m.inner else pure []

/-- The piece `z`: `m` above the subtrahend's hash values. -/
def pieceAbove (m s : HashRegion) : Option (List HashRegion) :=
  if s.«end» < m.«end» then (fun z => [z]) <$> make (isectEnd m s) m.«end» m.inner else pure []

/-- The pieces `l` and `r`: over the common hash values, `m`'s keys outside the
subtrahend's. -/
def piecesBeside (m s : HashRegion) : Option (List HashRegion) :=
  if isectBeg m s < isectEnd m s then
    (m.inner.regionSubtractMany [s.inner]).mapM (make (isectBeg m s) (isectEnd m s))
  else pure []

/-- The body of the inner loop of `region_subtract_many`: `s` subtracted from one piece `m`.
The source's outer test `m->beg < s->beg || s->end < m->end` only guards the two tests of
`pieceBelow` and `pieceAbove`. -/
def subtractOne (m s : HashRegion) : Option (List HashRegion) := do
  let x ← pieceBelow m s
  let z ← pieceAbove m s
  let lr ← piecesBeside m s
  pure (x ++ z ++ lr)

/-- The inner loop of `region_subtract_many`: `s` subtracted from every piece of `buf`. -/
def subtractFromEach (s : HashRegion) : List HashRegion → Option (List HashRegion)
  | [] => some []
  | m :: rest => do
      let pieces ← subtractOne m s
      let others ← subtractFromEach s rest
      pure (pieces ++ others)

/-- `region_subtract_many(const hash_region_t &minuend, const std::vector<hash_region_t>
&subtrahends)`. -/
def regionSubtractMany (minuend : HashRegion) (subtrahends : List HashRegion) :
    Option (List HashRegion) :=
  subtrahends.foldlM (fun buf s => subtractFromEach s buf) [minuend]

/-- Regions with points that partition `X`. -/
structure Tiles (pieces : List HashRegion) (X : Set (Nat × StoreKey)) : Prop where
  partition : IsPartition points pieces X
  proper : ∀ r ∈ pieces, r.Proper

namespace Tiles

theorem nil : Tiles [] ∅ :=
  ⟨isPartition_nil.mpr rfl, fun _ member => absurd member List.not_mem_nil⟩

theorem singleton {r : HashRegion} (proper : r.Proper) : Tiles [r] r.points :=
  ⟨isPartition_singleton r, fun _ member => List.mem_singleton.mp member ▸ proper⟩

theorem eq_empty {X : Set (Nat × StoreKey)} (tiles : Tiles [] X) : X = ∅ :=
  isPartition_nil.mp tiles.partition

theorem append {pieces pieces' : List HashRegion} {X Y : Set (Nat × StoreKey)}
    (left : Tiles pieces X) (right : Tiles pieces' Y) (disjoint : Disjoint X Y) :
    Tiles (pieces ++ pieces') (X ∪ Y) := by
  refine ⟨left.partition.append right.partition disjoint, fun r member => ?_⟩
  rcases List.mem_append.mp member with member | member
  · exact left.proper r member
  · exact right.proper r member

end Tiles

section Cut

variable {m s : HashRegion}

theorem mem_isect (ordered : s.beg ≤ s.«end») {hashValue : Nat} :
    isectBeg m s ≤ hashValue ∧ hashValue < isectEnd m s ↔
      max m.beg s.beg ≤ hashValue ∧ hashValue < min m.«end» s.«end» := by
  unfold isectBeg isectEnd
  split <;> split <;> omega

theorem isectBeg_le (proper : m.Proper) : isectBeg m s ≤ m.«end» := by
  have := proper.beg_lt_end
  unfold isectBeg
  split <;> omega

theorem isectEnd_le (proper : m.Proper) : isectEnd m s ≤ m.«end» := by
  have := proper.beg_lt_end
  unfold isectEnd
  split <;> omega

theorem pieceBelow_tiles (proper : m.Proper) :
    ∃ x, pieceBelow m s = some x ∧ Tiles x (Set.Ico m.beg (isectBeg m s) ×ˢ m.inner.keys) := by
  have nonempty := proper.beg_lt_end
  unfold pieceBelow
  by_cases below : m.beg < s.beg
  · have lt : m.beg < isectBeg m s := by
      unfold isectBeg
      split <;> omega
    refine ⟨[⟨m.beg, isectBeg m s, m.inner⟩], by simp [below, make_eq_some lt proper.inner_nonempty], ?_⟩
    have piece : (⟨m.beg, isectBeg m s, m.inner⟩ : HashRegion).Proper :=
      ⟨lt, (isectBeg_le proper).trans proper.end_le,
        proper.inner_wellFormed, proper.inner_nonempty⟩
    simpa [points_eq] using Tiles.singleton piece
  · have empty : Set.Ico m.beg (isectBeg m s) = ∅ := by
      apply Set.Ico_eq_empty
      unfold isectBeg
      split <;> omega
    refine ⟨[], by simp [below], ?_⟩
    simpa [empty] using Tiles.nil

theorem pieceAbove_tiles (proper : m.Proper) :
    ∃ z, pieceAbove m s = some z ∧ Tiles z (Set.Ico (isectEnd m s) m.«end» ×ˢ m.inner.keys) := by
  have nonempty := proper.beg_lt_end
  unfold pieceAbove
  by_cases above : s.«end» < m.«end»
  · have lt : isectEnd m s < m.«end» := by
      unfold isectEnd
      split <;> omega
    refine ⟨[⟨isectEnd m s, m.«end», m.inner⟩],
      by simp [above, make_eq_some lt proper.inner_nonempty], ?_⟩
    have piece : (⟨isectEnd m s, m.«end», m.inner⟩ : HashRegion).Proper :=
      ⟨lt, proper.end_le, proper.inner_wellFormed, proper.inner_nonempty⟩
    simpa [points_eq] using Tiles.singleton piece
  · have empty : Set.Ico (isectEnd m s) m.«end» = ∅ := by
      apply Set.Ico_eq_empty
      unfold isectEnd
      split <;> omega
    refine ⟨[], by simp [above], ?_⟩
    simpa [empty] using Tiles.nil

theorem piecesBeside_tiles (proper : m.Proper) (wellFormed : s.WellFormed) :
    ∃ lr, piecesBeside m s = some lr ∧
      Tiles lr (Set.Ico (isectBeg m s) (isectEnd m s) ×ˢ (m.inner.keys \ s.inner.keys)) := by
  unfold piecesBeside
  by_cases common : isectBeg m s < isectEnd m s
  · -- Common hash values make the subtrahend's hash values non-empty, so its keys are
    -- well formed.
    have innerWellFormed : s.inner.WellFormed := by
      apply wellFormed.inner_wellFormed
      have := (@mem_isect m s wellFormed.beg_le_end _).mp ⟨le_rfl, common⟩
      omega
    have pieces := fun r (member : r ∈ m.inner.subtractOne s.inner) =>
      KeyRange.wellFormed_of_mem_subtractOne proper.inner_wellFormed member
    refine ⟨(m.inner.subtractOne s.inner).map fun inner => ⟨isectBeg m s, isectEnd m s, inner⟩,
      ?_, ?_, ?_⟩
    · simp only [common, if_true, KeyRange.regionSubtractMany_singleton]
      exact mapM_make common fun r member => (pieces r member).2
    · rw [isPartition_map]
      simpa [points_eq] using ((KeyRange.isPartition_subtractOne proper.inner_wellFormed
        innerWellFormed).prod (Set.Ico (isectBeg m s) (isectEnd m s)))
    · intro r member
      obtain ⟨inner, memberInner, rfl⟩ := List.mem_map.mp member
      exact ⟨common, (isectEnd_le proper).trans proper.end_le, (pieces inner memberInner).1,
        (pieces inner memberInner).2⟩
  · refine ⟨[], by simp [common], ?_⟩
    simpa [Set.Ico_eq_empty common] using Tiles.nil

/-- **One cut.**  The pieces of `subtractOne m s` tile the points of `m` outside `s`. -/
theorem subtractOne_tiles (proper : m.Proper) (wellFormed : s.WellFormed) :
    ∃ pieces, subtractOne m s = some pieces ∧ Tiles pieces (m.points \ s.points) := by
  obtain ⟨x, belowEq, below⟩ := @pieceBelow_tiles m s proper
  obtain ⟨z, aboveEq, above⟩ := @pieceAbove_tiles m s proper
  obtain ⟨lr, besideEq, beside⟩ := piecesBeside_tiles proper wellFormed
  have ordered := wellFormed.beg_le_end
  -- The drawing: `x` and `z` keep all of `m`'s keys, `l` and `r` only those outside `s`.
  have drawing : m.points \ s.points =
      (Set.Ico m.beg (isectBeg m s) ×ˢ m.inner.keys ∪
        Set.Ico (isectEnd m s) m.«end» ×ˢ m.inner.keys) ∪
      Set.Ico (isectBeg m s) (isectEnd m s) ×ˢ (m.inner.keys \ s.inner.keys) := by
    ext ⟨hashValue, key⟩
    simp only [points_eq, Set.mem_sdiff, Set.mem_union, Set.mem_prod, Set.mem_Ico]
    unfold isectBeg isectEnd
    by_cases inM : key ∈ m.inner.keys <;> by_cases inS : key ∈ s.inner.keys <;>
      simp only [inM, inS, and_true, and_false, not_true, not_false_eq_true, or_false,
        false_and] <;> split <;> split <;> omega
  have disjointXZ : Disjoint (Set.Ico m.beg (isectBeg m s) ×ˢ m.inner.keys)
      (Set.Ico (isectEnd m s) m.«end» ×ˢ m.inner.keys) := by
    refine Set.disjoint_prod.mpr (Or.inl (Set.disjoint_left.mpr fun hashValue first second => ?_))
    simp only [Set.mem_Ico] at first second
    unfold isectBeg at first
    unfold isectEnd at second
    split at first <;> split at second <;> omega
  have disjointLR : Disjoint (Set.Ico m.beg (isectBeg m s) ×ˢ m.inner.keys ∪
      Set.Ico (isectEnd m s) m.«end» ×ˢ m.inner.keys)
      (Set.Ico (isectBeg m s) (isectEnd m s) ×ˢ (m.inner.keys \ s.inner.keys)) := by
    refine Set.disjoint_union_left.mpr ⟨?_, ?_⟩
    all_goals
      refine Set.disjoint_prod.mpr (Or.inl (Set.disjoint_left.mpr fun hashValue first second => ?_))
      simp only [Set.mem_Ico] at first second
      omega
  refine ⟨x ++ z ++ lr, by simp [subtractOne, belowEq, aboveEq, besideEq], ?_⟩
  rw [drawing]
  exact (below.append above disjointXZ).append beside disjointLR

end Cut

/-- **The inner loop.**  Cutting every piece of a tiling of `X` by `s` tiles `X \ s`. -/
theorem subtractFromEach_tiles {s : HashRegion} (wellFormed : s.WellFormed) :
    ∀ {buf : List HashRegion} {X : Set (Nat × StoreKey)}, Tiles buf X →
      ∃ pieces, subtractFromEach s buf = some pieces ∧ Tiles pieces (X \ s.points)
  | [], X, tiles => ⟨[], rfl, by simpa [tiles.eq_empty] using Tiles.nil⟩
  | m :: rest, X, tiles => by
      have proper := tiles.proper m (List.mem_cons_self ..)
      obtain ⟨pieces, cutEq, cut⟩ := subtractOne_tiles proper wellFormed
      obtain ⟨others, restEq, restTiles⟩ := subtractFromEach_tiles wellFormed
        (show Tiles rest (X \ m.points) from
          ⟨tiles.partition.tail, fun r member => tiles.proper r (List.mem_cons_of_mem m member)⟩)
      refine ⟨pieces ++ others, by simp [subtractFromEach, cutEq, restEq], ?_⟩
      refine ⟨IsPartition.refine_cons (tiles.partition.subset (List.mem_cons_self ..))
        cut.partition restTiles.partition, fun r member => ?_⟩
      rcases List.mem_append.mp member with member | member
      · exact cut.proper r member
      · exact restTiles.proper r member

/-- **The outer loop.**  After the subtrahends, the buffer tiles the points of `X` outside
every subtrahend. -/
theorem foldlM_subtractFromEach_tiles :
    ∀ (subtrahends : List HashRegion), (∀ s ∈ subtrahends, s.WellFormed) →
      ∀ {buf : List HashRegion} {X : Set (Nat × StoreKey)}, Tiles buf X →
        ∃ pieces, subtrahends.foldlM (fun buf s => subtractFromEach s buf) buf = some pieces ∧
          Tiles pieces {p | p ∈ X ∧ ∀ s ∈ subtrahends, p ∉ s.points}
  | [], _, buf, X, tiles => ⟨buf, rfl, by simpa using tiles⟩
  | s :: rest, wellFormed, buf, X, tiles => by
      obtain ⟨cut, cutEq, cutTiles⟩ :=
        subtractFromEach_tiles (wellFormed s (List.mem_cons_self ..)) tiles
      obtain ⟨pieces, restEq, restTiles⟩ := foldlM_subtractFromEach_tiles rest
        (fun s' member => wellFormed s' (List.mem_cons_of_mem s member)) cutTiles
      have outside : {p | p ∈ X \ s.points ∧ ∀ s' ∈ rest, p ∉ s'.points} =
          {p | p ∈ X ∧ ∀ s' ∈ s :: rest, p ∉ s'.points} := by
        ext p
        simp only [Set.mem_ofPred_eq, Set.mem_sdiff, List.forall_mem_cons]
        tauto
      refine ⟨pieces, by simp [List.foldlM_cons, cutEq, restEq], ?_⟩
      rw [← outside]
      exact restTiles

/-! ## Where the pieces' bounds come from

Every bound of a piece is a bound of the minuend or of a subtrahend: the cuts of
`subtractOne` only clamp bounds with `min` and `max`.  `region_join` splits at these values,
so subtraction never makes its grid finer than the regions it started from.
-/

/-- The bounds of `r` are among the hash values `B` and the key bounds `K`. -/
structure BoundedBy (B : Set Nat) (K : Set RightBound) (r : HashRegion) : Prop where
  beg_mem : r.beg ∈ B
  end_mem : r.«end» ∈ B
  left_mem : RightBound.bounded r.inner.left ∈ K
  right_mem : r.inner.right ∈ K

theorem make_eq_some_iff {beg «end» : Nat} {inner : KeyRange} {r : HashRegion} :
    make beg «end» inner = some r ↔ (beg < «end» ∧ inner.isEmpty = false) ∧ r = ⟨beg, «end», inner⟩ := by
  unfold make
  split
  · rename_i valid
    simp only [Option.some.injEq, valid, true_and]
    exact ⟨Eq.symm, Eq.symm⟩
  · rename_i invalid
    simp [invalid]

theorem mem_of_mapM_make {beg «end» : Nat} :
    ∀ {ranges : List KeyRange} {pieces : List HashRegion},
      ranges.mapM (make beg «end») = some pieces →
        ∀ r ∈ pieces, ∃ inner ∈ ranges, r = ⟨beg, «end», inner⟩
  | [], pieces, eq => by
      simp only [List.mapM_nil, Option.pure_def, Option.some.injEq] at eq
      simp [← eq]
  | range :: rest, pieces, eq => by
      simp only [List.mapM_cons, Option.bind_eq_bind, Option.bind_eq_some_iff, Option.pure_def,
        Option.some.injEq] at eq
      obtain ⟨first, firstEq, others, othersEq, rfl⟩ := eq
      intro r member
      rcases List.mem_cons.mp member with rfl | member
      · exact ⟨range, List.mem_cons_self .., (make_eq_some_iff.mp firstEq).2⟩
      · obtain ⟨inner, memberInner, rfl⟩ := mem_of_mapM_make othersEq r member
        exact ⟨inner, List.mem_cons_of_mem _ memberInner, rfl⟩

section Bounds

variable {B : Set Nat} {K : Set RightBound} {m s : HashRegion}

theorem isectBeg_mem (boundedM : BoundedBy B K m) (boundedS : BoundedBy B K s) :
    isectBeg m s ∈ B := by
  unfold isectBeg
  split
  · rcases min_choice s.beg m.«end» with same | same <;> rw [same]
    exacts [boundedS.beg_mem, boundedM.end_mem]
  · rcases max_choice m.beg s.beg with same | same <;> rw [same]
    exacts [boundedM.beg_mem, boundedS.beg_mem]

theorem isectEnd_mem (boundedM : BoundedBy B K m) (boundedS : BoundedBy B K s) :
    isectEnd m s ∈ B := by
  unfold isectEnd
  split
  · rcases max_choice m.beg s.«end» with same | same <;> rw [same]
    exacts [boundedM.beg_mem, boundedS.end_mem]
  · rcases min_choice m.«end» s.«end» with same | same <;> rw [same]
    exacts [boundedM.end_mem, boundedS.end_mem]

/-- **One cut keeps the bounds.** -/
theorem boundedBy_of_mem_subtractOne (boundedM : BoundedBy B K m) (boundedS : BoundedBy B K s)
    {pieces : List HashRegion} (eq : subtractOne m s = some pieces) :
    ∀ r ∈ pieces, BoundedBy B K r := by
  simp only [subtractOne, Option.bind_eq_bind, Option.bind_eq_some_iff, Option.pure_def,
    Option.some.injEq] at eq
  obtain ⟨x, belowEq, z, aboveEq, lr, besideEq, rfl⟩ := eq
  have begMem := isectBeg_mem boundedM boundedS
  have endMem := isectEnd_mem boundedM boundedS
  intro r member
  simp only [List.mem_append] at member
  rcases member with (member | member) | member
  · unfold pieceBelow at belowEq
    split at belowEq
    · obtain ⟨piece, pieceEq, rfl⟩ := Option.map_eq_some_iff.mp belowEq
      rw [List.mem_singleton.mp member, (make_eq_some_iff.mp pieceEq).2]
      exact ⟨boundedM.beg_mem, begMem, boundedM.left_mem, boundedM.right_mem⟩
    · simp only [Option.pure_def, Option.some.injEq] at belowEq
      simp [← belowEq] at member
  · unfold pieceAbove at aboveEq
    split at aboveEq
    · obtain ⟨piece, pieceEq, rfl⟩ := Option.map_eq_some_iff.mp aboveEq
      rw [List.mem_singleton.mp member, (make_eq_some_iff.mp pieceEq).2]
      exact ⟨endMem, boundedM.end_mem, boundedM.left_mem, boundedM.right_mem⟩
    · simp only [Option.pure_def, Option.some.injEq] at aboveEq
      simp [← aboveEq] at member
  · unfold piecesBeside at besideEq
    split at besideEq
    · obtain ⟨inner, memberInner, rfl⟩ := mem_of_mapM_make besideEq r member
      rw [KeyRange.regionSubtractMany_singleton] at memberInner
      obtain ⟨left, right⟩ := KeyRange.bounds_of_mem_subtractOne memberInner
      refine ⟨begMem, endMem, ?_, ?_⟩
      · rcases left with same | same <;> rw [same]
        exacts [boundedM.left_mem, boundedS.right_mem]
      · rcases right with same | same <;> rw [same]
        exacts [boundedM.right_mem, boundedS.left_mem]
    · simp only [Option.pure_def, Option.some.injEq] at besideEq
      simp [← besideEq] at member

theorem boundedBy_of_mem_subtractFromEach (boundedS : BoundedBy B K s) :
    ∀ {buf pieces : List HashRegion}, (∀ r ∈ buf, BoundedBy B K r) →
      subtractFromEach s buf = some pieces → ∀ r ∈ pieces, BoundedBy B K r
  | [], pieces, _, eq => by
      simp only [subtractFromEach, Option.some.injEq] at eq
      simp [← eq]
  | m :: rest, pieces, bounded, eq => by
      simp only [subtractFromEach, Option.bind_eq_bind, Option.bind_eq_some_iff, Option.pure_def,
        Option.some.injEq] at eq
      obtain ⟨cut, cutEq, others, othersEq, rfl⟩ := eq
      intro r member
      rcases List.mem_append.mp member with member | member
      · exact boundedBy_of_mem_subtractOne (bounded m (List.mem_cons_self ..)) boundedS cutEq r
          member
      · exact boundedBy_of_mem_subtractFromEach boundedS
          (fun r' member' => bounded r' (List.mem_cons_of_mem m member')) othersEq r member

/-- **Subtraction keeps the bounds**: every bound of a piece is a bound of the minuend or of a
subtrahend. -/
theorem boundedBy_of_mem_regionSubtractMany {minuend : HashRegion} {subtrahends pieces : List HashRegion}
    (boundedM : BoundedBy B K minuend) (boundedS : ∀ s ∈ subtrahends, BoundedBy B K s)
    (eq : regionSubtractMany minuend subtrahends = some pieces) : ∀ r ∈ pieces, BoundedBy B K r := by
  unfold regionSubtractMany at eq
  -- The buffer keeps the bounds after every subtrahend.
  suffices loop : ∀ (rest buf : List HashRegion), (∀ s ∈ rest, BoundedBy B K s) →
      (∀ r ∈ buf, BoundedBy B K r) →
      ∀ {pieces}, rest.foldlM (fun buf s => subtractFromEach s buf) buf = some pieces →
        ∀ r ∈ pieces, BoundedBy B K r from
    loop subtrahends [minuend] boundedS (by simpa using boundedM) eq
  intro rest
  induction rest with
  | nil =>
      intro buf _ bounded pieces eq
      simp only [List.foldlM_nil, Option.pure_def, Option.some.injEq] at eq
      exact eq ▸ bounded
  | cons s rest ih =>
      intro buf boundedRest bounded pieces eq
      simp only [List.foldlM_cons, Option.bind_eq_bind, Option.bind_eq_some_iff] at eq
      obtain ⟨cut, cutEq, restEq⟩ := eq
      exact ih cut (fun s' member => boundedRest s' (List.mem_cons_of_mem s member))
        (boundedBy_of_mem_subtractFromEach (boundedRest s (List.mem_cons_self ..)) bounded cutEq)
        restEq

end Bounds

/-- The pieces of a subtraction tile what the subtrahends leave of the minuend. -/
theorem regionSubtractMany_tiles {minuend : HashRegion} {subtrahends : List HashRegion}
    (proper : minuend.Proper) (wellFormed : ∀ s ∈ subtrahends, s.WellFormed) :
    ∃ pieces, regionSubtractMany minuend subtrahends = some pieces ∧
      Tiles pieces {p | p ∈ minuend.points ∧ ∀ s ∈ subtrahends, p ∉ s.points} :=
  foldlM_subtractFromEach_tiles subtrahends wellFormed (Tiles.singleton proper)

/-- **Hash-region subtraction is set difference.**  From a minuend with points, and
subtrahends that are empty or well formed, `region_subtract_many` stops at no guarantee and
returns non-empty regions with pairwise disjoint points whose union is the minuend's points
outside every subtrahend. -/
theorem region_subtract_many_partitions (minuend : HashRegion) (subtrahends : List HashRegion)
    (proper : minuend.Proper) (wellFormed : ∀ s ∈ subtrahends, s.WellFormed) :
    ∃ pieces, regionSubtractMany minuend subtrahends = some pieces ∧
      (∀ r ∈ pieces, r.Proper ∧ regionIsEmpty r = false) ∧
      pieces.Pairwise (fun a b => Disjoint a.points b.points) ∧
      ∀ p, (∃ r ∈ pieces, p ∈ r.points) ↔
        p ∈ minuend.points ∧ ∀ s ∈ subtrahends, p ∉ s.points := by
  obtain ⟨pieces, eq, tiles⟩ := regionSubtractMany_tiles proper wellFormed
  refine ⟨pieces, eq, fun r member => ?_, tiles.partition.pairwise_disjoint,
    tiles.partition.covers⟩
  exact ⟨tiles.proper r member, (tiles.proper r member).regionIsEmpty_eq_false⟩

/-- The lower half of the hash values taken out of the universe. -/
theorem universe_minus_lower_half :
    ∃ pieces, regionSubtractMany «universe» [⟨0, 2 ^ 62, KeyRange.universe⟩] = some pieces ∧
      (∀ r ∈ pieces, r.Proper ∧ regionIsEmpty r = false) ∧
      pieces.Pairwise (fun a b => Disjoint a.points b.points) ∧
      ∀ p, (∃ r ∈ pieces, p ∈ r.points) ↔
        p ∈ «universe».points ∧ ∀ s ∈ [(⟨0, 2 ^ 62, KeyRange.universe⟩ : HashRegion)],
          p ∉ s.points :=
  region_subtract_many_partitions _ _ ⟨by decide, le_rfl, RightBound.le_unbounded _, rfl⟩
    (by simpa using ⟨by decide, fun _ => RightBound.le_unbounded _⟩)

/-- The empty minuend: with nothing subtracted the result is the empty region, and a
subtrahend above hash value `0` stops the constructor of `x`. -/
theorem subtract_many_from_empty_region :
    regionSubtractMany empty [] = some [empty] ∧ regionIsEmpty empty = true ∧
      regionSubtractMany empty [⟨1, 2, KeyRange.universe⟩] = none := by
  decide

end Region
end RethinkDB
