import Mathlib
import RethinkDB.Region.RegionJoin

/-!
# Region maps

`region_map_t` of `region/region_map.hpp` gives values to disjoint hash regions, as a list of
pairs.  Its domain is the join of its regions (`get_domain`, through `region_join`), `mask`
cuts every region down to a region, and `update` takes the regions of a second map out of
every old region with `region_subtract_many` and appends the second map's pairs.

A map whose regions are disjoint and have points keeps that shape under both operations:
the pieces of `update` tile the old domain with the overlay's points taken out
(`LeftOver`), those of `mask` are the old regions cut down (`MaskedFrom`), and a point gets
the value of the one region that holds it (`valueAt_eq_of_mem`).  Subtraction and
intersection only choose among the bounds they are given, so the grid of the result is never
finer than the grid of the regions it came from (`GridFits.of_boundedBy`).
-/

namespace RethinkDB
namespace Region

open Btree Partition HashRegion

theorem Tiles.unionPoints_eq {pieces : List HashRegion} {X : Set (Nat × StoreKey)}
    (tiles : Tiles pieces X) : unionPoints pieces = X :=
  Set.ext tiles.partition.covers

/-- `region_map_t<value_t>`: its `regions_and_values`. -/
structure RegionMap (V : Type) where
  regionsAndValues : List (HashRegion × V)
  deriving DecidableEq

namespace RegionMap

variable {V : Type}

/-- `region_map_t(region_t r, value_t v)`. -/
def single (r : HashRegion) (v : V) : RegionMap V := ⟨[(r, v)]⟩

/-- The regions of the map, in order. -/
def regions (m : RegionMap V) : List HashRegion := m.regionsAndValues.map Prod.fst

/-- `get_domain()`; `none` where `guarantee(join_result == REGION_JOIN_OK)` fails. -/
def getDomain (m : RegionMap V) : Option HashRegion :=
  match regionJoin m.regions with
  | some (.ok join) => some join
  | _ => none

/-- The loop of `mask`: every intersection with `region` that is not empty, with its value. -/
def maskedPairs (region : HashRegion) : List (HashRegion × V) → Option (List (HashRegion × V))
  | [] => some []
  | (r, v) :: rest => do
      let ixn ← regionIntersection r region
      let others ← maskedPairs region rest
      pure (if !regionIsEmpty ixn then (ixn, v) :: others else others)

/-- `mask(region_t region)`.  The constructor's `DEBUG_ONLY(get_domain())` is left out. -/
def mask (m : RegionMap V) (region : HashRegion) : Option (RegionMap V) := do
  let maskedPairs ← maskedPairs region m.regionsAndValues
  pure ⟨maskedPairs⟩

/-- The loop of `update` over the old pairs: what `region_subtract_many` leaves of every old
region, with the old value. -/
def unchangedPairs (overlayRegions : List HashRegion) :
    List (HashRegion × V) → Option (List (HashRegion × V))
  | [] => some []
  | (old, v) :: rest => do
      let oldSubregions ← regionSubtractMany old overlayRegions
      let others ← unchangedPairs overlayRegions rest
      pure (oldSubregions.map (fun r => (r, v)) ++ others)

/-- `update(const region_map_t &new_values)`.  The debug build's `rassert` that the new
domain lies in the old one is left out. -/
def update (m newValues : RegionMap V) : Option (RegionMap V) := do
  let updatedPairs ← unchangedPairs newValues.regions m.regionsAndValues
  pure ⟨updatedPairs ++ newValues.regionsAndValues⟩

/-- `set(const region_t &r, const value_t &v)`. -/
def set (m : RegionMap V) (r : HashRegion) (v : V) : Option (RegionMap V) :=
  update m (single r v)

/-- The value the map gives the point `p`: that of the first region holding it. -/
def valueAt (m : RegionMap V) (p : Nat × StoreKey) : Option V :=
  (m.regionsAndValues.find? fun rv => regionContainsKeyWithPrecomputedHash rv.1 p.2 p.1).map
    Prod.snd

@[simp] theorem regions_mk (pairs : List (HashRegion × V)) :
    (⟨pairs⟩ : RegionMap V).regions = pairs.map Prod.fst := rfl

/-! ## Values -/

section Values

variable {p : Nat × StoreKey}

theorem valueAt_eq_none {pairs : List (HashRegion × V)}
    (outside : ∀ r ∈ pairs.map Prod.fst, p ∉ r.points) :
    (⟨pairs⟩ : RegionMap V).valueAt p = none := by
  unfold valueAt
  rw [List.find?_eq_none.mpr]
  · rfl
  · intro rv member inside
    exact outside rv.1 (List.mem_map_of_mem member) inside

theorem valueAt_append_right {pairs pairs' : List (HashRegion × V)}
    (outside : ∀ r ∈ pairs.map Prod.fst, p ∉ r.points) :
    (⟨pairs ++ pairs'⟩ : RegionMap V).valueAt p = (⟨pairs'⟩ : RegionMap V).valueAt p := by
  have none := valueAt_eq_none outside
  unfold valueAt at none ⊢
  rw [List.find?_append]
  rw [Option.map_eq_none_iff] at none
  rw [none]
  rfl

/-- **A point gets the value of the region that holds it**, when the regions are disjoint. -/
theorem valueAt_eq_of_mem {r : HashRegion} {v : V} :
    ∀ {pairs : List (HashRegion × V)},
      (pairs.map Prod.fst).Pairwise (fun r s => Disjoint r.points s.points) →
        (r, v) ∈ pairs → p ∈ r.points → (⟨pairs⟩ : RegionMap V).valueAt p = some v
  | [], _, member, _ => absurd member List.not_mem_nil
  | (r₀, v₀) :: rest, disjoint, member, inside => by
      rw [List.map_cons, List.pairwise_cons] at disjoint
      by_cases here : p ∈ r₀.points
      · -- The first region holds `p`, so no later one does.
        have first : (r, v) = (r₀, v₀) := by
          rcases List.mem_cons.mp member with same | later
          · exact same
          · have apart := disjoint.1 r (List.mem_map_of_mem later)
            exact absurd inside (Set.disjoint_left.mp apart here)
        have found : regionContainsKeyWithPrecomputedHash r₀ p.2 p.1 = true := here
        simp only [valueAt, List.find?_cons, found]
        rw [Prod.mk.inj first |>.2]
        rfl
      · have later : (r, v) ∈ rest := by
          rcases List.mem_cons.mp member with same | later
          · rw [Prod.mk.inj same |>.1] at inside
            exact absurd inside here
          · exact later
        have missed : regionContainsKeyWithPrecomputedHash r₀ p.2 p.1 = false :=
          Bool.eq_false_iff.mpr here
        have restValue := valueAt_eq_of_mem disjoint.2 later inside
        unfold valueAt at restValue ⊢
        simp only [List.find?_cons, missed]
        exact restValue

end Values

/-! ## Domains -/

/-- What `get_domain()` returning `D` says of a map: its regions are disjoint and their union
is the points of `D`, which is the empty region or one with points. -/
structure IsDomain (m : RegionMap V) (D : HashRegion) : Prop where
  disjoint : m.regions.Pairwise fun r s => Disjoint r.points s.points
  shape : D = empty ∨ D.Proper
  union : D.points = unionPoints m.regions

theorem regionJoin_of_getDomain_eq {m : RegionMap V} {D : HashRegion}
    (domain : m.getDomain = some D) : regionJoin m.regions = some (.ok D) := by
  unfold getDomain at domain
  split at domain
  · rename_i join joined
    rw [joined, Option.some.inj domain]
  · cases domain

section Domain

variable {m : RegionMap V} {D : HashRegion} (proper : ∀ r ∈ m.regions, r.Proper)
include proper

theorem isDomain_of_getDomain_eq (domain : m.getDomain = some D) : m.IsDomain D := by
  have joined := regionJoin_of_getDomain_eq domain
  rcases eq_or_ne m.regions [] with none | nonempty
  · -- With no regions the join is the empty region.
    rw [none, regionJoin_nil] at joined
    have same : D = empty := by
      injection joined with joined
      injection joined with joined
      exact joined.symm
    subst same
    refine ⟨?_, Or.inl rfl, ?_⟩
    · rw [none]
      exact List.Pairwise.nil
    · rw [none, points_empty, unionPoints_nil]
  · obtain ⟨disjoint, properD, union⟩ := regionJoin_eq_ok proper nonempty joined
    exact ⟨disjoint, Or.inr properD, union⟩

theorem gridFits_of_getDomain_eq (domain : m.getDomain = some D) (nonempty : m.regions ≠ []) :
    GridFits m.regions :=
  gridFits_of_regionJoin_eq_some proper nonempty (regionJoin_of_getDomain_eq domain)

/-- **`get_domain()` finds every domain** whose grid fits. -/
theorem getDomain_eq_of_isDomain (domain : m.IsDomain D)
    (fits : m.regions ≠ [] → GridFits m.regions) : m.getDomain = some D := by
  have joined : regionJoin m.regions = some (.ok D) := by
    rcases eq_or_ne m.regions [] with none | nonempty
    · -- No regions: `D` has no points, so it is the empty region.
      rcases domain.shape with rfl | properD
      · rw [none]
        rfl
      · have corner := properD.corner_mem
        rw [domain.union, none, unionPoints_nil] at corner
        exact absurd corner (Set.notMem_empty _)
    · rcases domain.shape with rfl | properD
      · have noPoints := domain.union
        rw [points_empty, eq_comm, unionPoints_eq_empty_iff proper] at noPoints
        exact absurd noPoints nonempty
      · exact regionJoin_eq_ok_of_union proper nonempty (fits nonempty) domain.disjoint properD
          domain.union
  unfold getDomain
  rw [joined]

end Domain

/-! ## Update -/

/-- `pairs` hold what is left of the regions of `old` outside the regions `overlay`, each
piece with the value of the region it was cut from. -/
structure LeftOver (overlay : List HashRegion) (old pairs : List (HashRegion × V)) : Prop where
  tiles : Tiles (pairs.map Prod.fst) (unionPoints (old.map Prod.fst) \ unionPoints overlay)
  origin : ∀ q ∈ pairs, ∃ x ∈ old, q.2 = x.2 ∧ q.1.points ⊆ x.1.points

theorem unchangedPairs_leftOver {overlay : List HashRegion}
    (wellFormed : ∀ s ∈ overlay, s.WellFormed) :
    ∀ {old : List (HashRegion × V)}, (∀ r ∈ old.map Prod.fst, r.Proper) →
      (old.map Prod.fst).Pairwise (fun r s => Disjoint r.points s.points) →
        ∃ pairs, unchangedPairs overlay old = some pairs ∧ LeftOver overlay old pairs
  | [], _, _ => ⟨[], rfl, ⟨by simpa using Tiles.nil, by simp⟩⟩
  | (r, v) :: rest, proper, disjoint => by
      rw [List.map_cons, List.pairwise_cons] at disjoint
      obtain ⟨pieces, piecesEq, pieceTiles⟩ :=
        regionSubtractMany_tiles (proper r (List.mem_cons_self ..)) wellFormed
      obtain ⟨others, restEq, restLeft⟩ := unchangedPairs_leftOver wellFormed
        (fun r' member => proper r' (List.mem_cons_of_mem r member)) disjoint.2
      have outside : {p | p ∈ r.points ∧ ∀ s ∈ overlay, p ∉ s.points} =
          r.points \ unionPoints overlay := by
        ext p
        simp [unionPoints]
      rw [outside] at pieceTiles
      -- The pieces of `r` and of the later regions lie in disjoint regions.
      have apart : Disjoint (r.points \ unionPoints overlay)
          (unionPoints (rest.map Prod.fst) \ unionPoints overlay) := by
        apply Disjoint.mono Set.sdiff_subset Set.sdiff_subset
        rw [Set.disjoint_left]
        rintro p inside ⟨r', member, inside'⟩
        exact Set.disjoint_left.mp (disjoint.1 r' member) inside inside'
      have fsts : (pieces.map (fun q => (q, v)) ++ others).map Prod.fst =
          pieces ++ others.map Prod.fst := by
        simp [Function.comp_def]
      refine ⟨pieces.map (fun q => (q, v)) ++ others, by simp [unchangedPairs, piecesEq, restEq],
        ⟨?_, ?_⟩⟩
      · rw [fsts, List.map_cons, unionPoints_cons, Set.union_sdiff_distrib]
        exact pieceTiles.append restLeft.tiles apart
      · intro q member
        rcases List.mem_append.mp member with member | member
        · obtain ⟨piece, memberPiece, rfl⟩ := List.mem_map.mp member
          exact ⟨(r, v), List.mem_cons_self .., rfl,
            (pieceTiles.partition.subset memberPiece).trans Set.sdiff_subset⟩
        · obtain ⟨x, memberX, same, sub⟩ := restLeft.origin q member
          exact ⟨x, List.mem_cons_of_mem _ memberX, same, sub⟩

/-- **The bounds of the pieces of `update`** are bounds of the old regions or of the
overlay. -/
theorem boundedBy_of_unchangedPairs {B : Set Nat} {K : Set RightBound}
    {overlay : List HashRegion} (boundedO : ∀ s ∈ overlay, BoundedBy B K s) :
    ∀ {old pairs : List (HashRegion × V)}, (∀ r ∈ old.map Prod.fst, BoundedBy B K r) →
      unchangedPairs overlay old = some pairs → ∀ q ∈ pairs.map Prod.fst, BoundedBy B K q
  | [], pairs, _, eq => by
      simp only [unchangedPairs, Option.some.injEq] at eq
      simp [← eq]
  | (r, v) :: rest, pairs, bounded, eq => by
      simp only [unchangedPairs, Option.bind_eq_bind, Option.bind_eq_some_iff, Option.pure_def,
        Option.some.injEq] at eq
      obtain ⟨pieces, piecesEq, others, othersEq, rfl⟩ := eq
      intro q member
      simp only [List.map_append, List.map_map, Function.comp_def, List.map_id'] at member
      rcases List.mem_append.mp member with member | member
      · exact boundedBy_of_mem_regionSubtractMany (bounded r (List.mem_cons_self ..)) boundedO
          piecesEq q member
      · exact boundedBy_of_unchangedPairs boundedO
          (fun r' member' => bounded r' (List.mem_cons_of_mem r member')) othersEq q member

/-- Every bound of a region of `vec` is a bound of `vec`. -/
theorem boundedBy_bounds {vec : List HashRegion} {r : HashRegion} (member : r ∈ vec) :
    BoundedBy (id '' {h | h ∈ vec.flatMap fun r => [r.beg, r.«end»]})
      (id '' {k | k ∈ vec.flatMap fun r => [RightBound.bounded r.inner.left, r.inner.right]}) r := by
  rw [Set.image_id, Set.image_id]
  exact ⟨List.mem_flatMap.mpr ⟨r, member, by simp⟩, List.mem_flatMap.mpr ⟨r, member, by simp⟩,
    List.mem_flatMap.mpr ⟨r, member, by simp⟩, List.mem_flatMap.mpr ⟨r, member, by simp⟩⟩

section LeftOver

variable {m n : RegionMap V} {pairs : List (HashRegion × V)} {D : HashRegion}
  (left : LeftOver n.regions m.regionsAndValues pairs)
include left

theorem LeftOver.isDomain (domain : m.IsDomain D)
    (disjointN : n.regions.Pairwise fun r s => Disjoint r.points s.points)
    (within : unionPoints n.regions ⊆ D.points) :
    (⟨pairs ++ n.regionsAndValues⟩ : RegionMap V).IsDomain D := by
  have pieces := left.tiles.unionPoints_eq
  refine ⟨?_, domain.shape, ?_⟩
  · rw [regions_mk, List.map_append]
    refine List.pairwise_append.mpr ⟨left.tiles.partition.pairwise_disjoint, disjointN, ?_⟩
    -- A piece lies outside the overlay, a region of `n` inside it.
    intro a memberA b memberB
    have overlaid : b.points ⊆ unionPoints n.regions := fun p inside => ⟨b, memberB, inside⟩
    exact Disjoint.mono (left.tiles.partition.subset memberA) overlaid Set.disjoint_sdiff_left
  · rw [regions_mk, List.map_append, unionPoints_append, pieces]
    change D.points = (unionPoints m.regions \ unionPoints n.regions) ∪ unionPoints n.regions
    rw [← domain.union, Set.sdiff_union_of_subset within]

theorem LeftOver.valueAt_of_mem {p : Nat × StoreKey} (overlaid : p ∈ unionPoints n.regions) :
    (⟨pairs ++ n.regionsAndValues⟩ : RegionMap V).valueAt p = n.valueAt p := by
  apply valueAt_append_right
  intro r member inside
  exact (left.tiles.partition.subset member inside).2 overlaid

theorem LeftOver.valueAt_of_notMem (domain : m.IsDomain D)
    (disjoint : (⟨pairs ++ n.regionsAndValues⟩ : RegionMap V).regions.Pairwise
      fun r s => Disjoint r.points s.points)
    {p : Nat × StoreKey} (inside : p ∈ D.points) (kept : p ∉ unionPoints n.regions) :
    (⟨pairs ++ n.regionsAndValues⟩ : RegionMap V).valueAt p = m.valueAt p := by
  rw [domain.union] at inside
  -- The piece that holds `p` carries the value of the old region it was cut from.
  obtain ⟨q, memberQ, insideQ⟩ := (left.tiles.partition.covers p).mpr ⟨inside, kept⟩
  obtain ⟨qv, memberQV, rfl⟩ := List.mem_map.mp memberQ
  obtain ⟨x, memberX, same, sub⟩ := left.origin qv memberQV
  have newValue := valueAt_eq_of_mem disjoint (List.mem_append_left _ memberQV) insideQ
  have oldValue := valueAt_eq_of_mem domain.disjoint memberX (sub insideQ)
  rw [newValue, same]
  exact oldValue.symm

end LeftOver

/-! ## Mask -/

/-- `pairs` are the pairs of `old` cut down to `region`, with the cuts that have no points
left out. -/
structure MaskedFrom (region : HashRegion) (old pairs : List (HashRegion × V)) : Prop where
  sublist : pairs.Sublist (old.map fun x => (commonRectangle x.1 region, x.2))
  proper : ∀ r ∈ pairs.map Prod.fst, r.Proper
  union : unionPoints (pairs.map Prod.fst) = unionPoints (old.map Prod.fst) ∩ region.points

theorem maskedPairs_maskedFrom {region : HashRegion} (valid : region.Valid) :
    ∀ {old : List (HashRegion × V)}, (∀ r ∈ old.map Prod.fst, r.Proper) →
      ∃ pairs, maskedPairs region old = some pairs ∧ MaskedFrom region old pairs
  | [], _ => ⟨[], rfl, List.Sublist.slnil, by simp, by simp⟩
  | (r, v) :: rest, proper => by
      have properR := proper r (List.mem_cons_self ..)
      obtain ⟨others, restEq, restMasked⟩ := maskedPairs_maskedFrom valid
        (fun r' member => proper r' (List.mem_cons_of_mem r member))
      rcases regionIntersection_cases properR valid with ⟨isectEq, apart⟩ | ⟨isectEq, commonProper⟩
      · -- No common point: the code drops the empty intersection.
        have dropped : regionIsEmpty empty = true := rfl
        refine ⟨others, by simp [maskedPairs, isectEq, restEq, dropped],
          restMasked.sublist.cons _, restMasked.proper, ?_⟩
        rw [restMasked.union, List.map_cons, unionPoints_cons, Set.union_inter_distrib_right, apart,
          Set.empty_union]
      · have common : (commonRectangle r region).points = r.points ∩ region.points :=
          points_commonRectangle
        refine ⟨(commonRectangle r region, v) :: others,
          by simp [maskedPairs, isectEq, restEq, commonProper.regionIsEmpty_eq_false],
          restMasked.sublist.cons_cons _, ?_, ?_⟩
        · intro r' member
          rcases List.mem_cons.mp member with rfl | member
          · exact commonProper
          · exact restMasked.proper r' member
        · rw [List.map_cons, unionPoints_cons, restMasked.union, common, List.map_cons,
            unionPoints_cons, Set.union_inter_distrib_right]

theorem MaskedFrom.origin {region : HashRegion} {old pairs : List (HashRegion × V)}
    (masked : MaskedFrom region old pairs) {q : HashRegion × V} (member : q ∈ pairs) :
    ∃ x ∈ old, q = (commonRectangle x.1 region, x.2) := by
  obtain ⟨x, memberX, same⟩ := List.mem_map.mp (masked.sublist.subset member)
  exact ⟨x, memberX, same.symm⟩

/-- **The grid of the cuts is no finer than the old one**: their bounds are the old bounds
clamped to `region`. -/
theorem MaskedFrom.gridFits {region : HashRegion} {m : RegionMap V}
    {pairs : List (HashRegion × V)} (masked : MaskedFrom region m.regionsAndValues pairs)
    (fits : m.regions ≠ [] → GridFits m.regions)
    (nonempty : pairs.map Prod.fst ≠ []) : GridFits (pairs.map Prod.fst) := by
  have nonemptyM : m.regions ≠ [] := by
    intro none
    obtain ⟨q, member⟩ := List.exists_mem_of_ne_nil _ nonempty
    obtain ⟨qv, memberQV, rfl⟩ := List.mem_map.mp member
    obtain ⟨x, memberX, _⟩ := masked.origin memberQV
    have memberR : x.1 ∈ m.regions := List.mem_map_of_mem memberX
    rw [none] at memberR
    exact absurd memberR List.not_mem_nil
  apply GridFits.of_boundedBy masked.proper nonempty (fits nonemptyM)
    (fun h => min (max h region.beg) region.«end»)
    (fun k => min (max k (.bounded region.inner.left)) region.inner.right)
  intro q member
  obtain ⟨qv, memberQV, rfl⟩ := List.mem_map.mp member
  obtain ⟨x, memberX, rfl⟩ := masked.origin memberQV
  obtain ⟨begEq, endEq, leftEq, rightEq⟩ := clamp_eq_commonRectangle (masked.proper _ member)
  have memberR : x.1 ∈ m.regions := List.mem_map_of_mem memberX
  refine ⟨⟨x.1.beg, ?_, begEq⟩, ⟨x.1.«end», ?_, endEq⟩, ⟨.bounded x.1.inner.left, ?_, leftEq⟩,
    ⟨x.1.inner.right, ?_, rightEq⟩⟩
  all_goals exact List.mem_flatMap.mpr ⟨x.1, memberR, by simp⟩

section Masked

variable {region : HashRegion} {m : RegionMap V} {pairs : List (HashRegion × V)}
  (masked : MaskedFrom region m.regionsAndValues pairs)
include masked

/-- Each cut lies in the region it was cut from and keeps its value. -/
theorem MaskedFrom.within {q : HashRegion × V} (member : q ∈ pairs) :
    ∃ x ∈ m.regionsAndValues, q.2 = x.2 ∧ q.1.points ⊆ x.1.points := by
  obtain ⟨x, memberX, rfl⟩ := masked.origin member
  refine ⟨x, memberX, rfl, ?_⟩
  rw [points_commonRectangle]
  exact Set.inter_subset_left

theorem MaskedFrom.pairwise_disjoint
    (disjoint : m.regions.Pairwise fun r s => Disjoint r.points s.points) :
    (pairs.map Prod.fst).Pairwise fun r s => Disjoint r.points s.points := by
  -- The cuts are as disjoint as the regions they are cut from.
  have cuts : ((m.regionsAndValues.map fun x => (commonRectangle x.1 region, x.2)).map
      Prod.fst).Pairwise fun r s => Disjoint r.points s.points := by
    rw [List.map_map, Function.comp_def, List.pairwise_map]
    have old := List.pairwise_map.mp disjoint
    apply old.imp_of_mem
    intro x y memberX memberY apart
    have inside : ∀ z ∈ m.regionsAndValues, (commonRectangle z.1 region).points ⊆ z.1.points := by
      intro z memberZ
      rw [points_commonRectangle]
      exact Set.inter_subset_left
    exact apart.mono (inside x memberX) (inside y memberY)
  exact cuts.sublist (masked.sublist.map Prod.fst)

theorem MaskedFrom.valueAt_eq
    (disjoint : m.regions.Pairwise fun r s => Disjoint r.points s.points)
    {p : Nat × StoreKey} (inside : p ∈ unionPoints m.regions) (insideRegion : p ∈ region.points) :
    (⟨pairs⟩ : RegionMap V).valueAt p = m.valueAt p := by
  have covered : p ∈ unionPoints (pairs.map Prod.fst) := by
    rw [masked.union]
    exact ⟨inside, insideRegion⟩
  obtain ⟨q, memberQ, insideQ⟩ := covered
  obtain ⟨qv, memberQV, rfl⟩ := List.mem_map.mp memberQ
  obtain ⟨x, memberX, same, sub⟩ := masked.within memberQV
  rw [valueAt_eq_of_mem (masked.pairwise_disjoint disjoint) memberQV insideQ, same]
  exact (valueAt_eq_of_mem disjoint memberX (sub insideQ)).symm

end Masked

/-! ## Correctness -/

open Classical in
/-- **`update` and `mask` keep a region map's shape.**  For a map of regions with points and
domain `D`: an update by disjoint regions with points inside `D`, whose bounds together with
the old ones still fit `region_join`'s grid, leaves disjoint regions with points, domain `D`,
the new value on the overlay and the old value elsewhere; a mask by a region leaves disjoint
regions with points, domain `D ∩ region`, and the old values there. -/
theorem region_map_update_overlays (m : RegionMap V) (D : HashRegion)
    (proper : ∀ r ∈ m.regions, r.Proper) (domain : m.getDomain = some D) :
    (∀ n : RegionMap V, (∀ r ∈ n.regions, r.Proper) →
      n.regions.Pairwise (fun r s => Disjoint r.points s.points) →
      unionPoints n.regions ⊆ D.points → (m.regions ≠ [] → GridFits (m.regions ++ n.regions)) →
      ∃ m', m.update n = some m' ∧ (∀ r ∈ m'.regions, r.Proper ∧ regionIsEmpty r = false) ∧
        m'.regions.Pairwise (fun r s => Disjoint r.points s.points) ∧ m'.getDomain = some D ∧
        ∀ p ∈ D.points,
          m'.valueAt p = if p ∈ unionPoints n.regions then n.valueAt p else m.valueAt p) ∧
    (∀ region : HashRegion, region.Valid →
      ∃ m', m.mask region = some m' ∧ (∀ r ∈ m'.regions, r.Proper ∧ regionIsEmpty r = false) ∧
        m'.regions.Pairwise (fun r s => Disjoint r.points s.points) ∧
        m'.getDomain = regionIntersection D region ∧
        ∀ p ∈ D.points, p ∈ region.points → m'.valueAt p = m.valueAt p) := by
  have isDomain := isDomain_of_getDomain_eq proper domain
  refine ⟨fun n properN disjointN within fits => ?_, fun region valid => ?_⟩
  · obtain ⟨pairs, pairsEq, left⟩ :=
      unchangedPairs_leftOver (fun s member => (properN s member).wellFormed) proper
        isDomain.disjoint
    have isDomain' := left.isDomain isDomain disjointN within
    have proper' : ∀ r ∈ (⟨pairs ++ n.regionsAndValues⟩ : RegionMap V).regions, r.Proper := by
      intro r member
      rw [regions_mk, List.map_append] at member
      rcases List.mem_append.mp member with member | member
      · exact left.tiles.proper r member
      · exact properN r member
    -- The pieces and the overlay have no bounds beyond those of the two maps.
    have fits' : (⟨pairs ++ n.regionsAndValues⟩ : RegionMap V).regions ≠ [] →
        GridFits (⟨pairs ++ n.regionsAndValues⟩ : RegionMap V).regions := by
      intro nonempty'
      have nonemptyM : m.regions ≠ [] := by
        intro none
        have noPoints : unionPoints (⟨pairs ++ n.regionsAndValues⟩ : RegionMap V).regions = ∅ := by
          rw [← isDomain'.union, isDomain.union, none, unionPoints_nil]
        exact nonempty' ((unionPoints_eq_empty_iff proper').mp noPoints)
      apply GridFits.of_boundedBy proper' nonempty' (fits nonemptyM) id id
      intro r member
      rw [regions_mk, List.map_append] at member
      rcases List.mem_append.mp member with member | member
      · exact boundedBy_of_unchangedPairs
          (fun s memberS => boundedBy_bounds (List.mem_append_right _ memberS))
          (fun r' memberR => boundedBy_bounds (List.mem_append_left _ memberR)) pairsEq r member
      · exact boundedBy_bounds (List.mem_append_right _ member)
    refine ⟨⟨pairs ++ n.regionsAndValues⟩, by simp [update, pairsEq],
      fun r member => ⟨proper' r member, (proper' r member).regionIsEmpty_eq_false⟩,
      isDomain'.disjoint, getDomain_eq_of_isDomain proper' isDomain' fits', fun p inside => ?_⟩
    split
    · rename_i overlaid
      exact left.valueAt_of_mem overlaid
    · rename_i kept
      exact left.valueAt_of_notMem isDomain isDomain'.disjoint inside kept
  · obtain ⟨pairs, pairsEq, masked⟩ := maskedPairs_maskedFrom valid proper
    have disjoint' := masked.pairwise_disjoint isDomain.disjoint
    obtain ⟨D', isectEq, shape', points'⟩ := regionIntersection_points isDomain.shape valid
    have isDomain' : (⟨pairs⟩ : RegionMap V).IsDomain D' := by
      refine ⟨disjoint', shape', ?_⟩
      rw [points', isDomain.union, regions_mk pairs, masked.union]
      rfl
    have fits' := masked.gridFits
      (fun nonempty => gridFits_of_getDomain_eq proper domain nonempty)
    refine ⟨⟨pairs⟩, by simp [mask, pairsEq],
      fun r member => ⟨masked.proper r member, (masked.proper r member).regionIsEmpty_eq_false⟩,
      disjoint', ?_, fun p inside insideRegion => ?_⟩
    · rw [isectEq]
      exact getDomain_eq_of_isDomain masked.proper isDomain' fits'
    · rw [isDomain.union] at inside
      exact masked.valueAt_eq isDomain.disjoint inside insideRegion


open Classical in
/-- The universe at `0` overlaid with the lower half of the hash values at `1`. -/
theorem universe_overlaid_by_lower_half :
    ∃ m', (single «universe» 0 : RegionMap Nat).update (single ⟨0, 2 ^ 62, KeyRange.universe⟩ 1) =
        some m' ∧ (∀ r ∈ m'.regions, r.Proper ∧ regionIsEmpty r = false) ∧
      m'.regions.Pairwise (fun r s => Disjoint r.points s.points) ∧
      m'.getDomain = some «universe» ∧
      ∀ p ∈ «universe».points, m'.valueAt p =
        if p ∈ unionPoints (single (⟨0, 2 ^ 62, KeyRange.universe⟩ : HashRegion) 1).regions then
          (single ⟨0, 2 ^ 62, KeyRange.universe⟩ 1).valueAt p
        else (single «universe» 0).valueAt p := by
  have lower : (⟨0, 2 ^ 62, KeyRange.universe⟩ : HashRegion).Proper :=
    ⟨by decide, by decide, RightBound.le_unbounded _, rfl⟩
  have whole : («universe» : HashRegion).Proper := ⟨by decide, le_rfl, RightBound.le_unbounded _, rfl⟩
  apply (region_map_update_overlays (single «universe» 0) «universe»
    (fun r member => List.mem_singleton.mp member ▸ whole) (by decide)).1
  · exact fun r member => List.mem_singleton.mp member ▸ lower
  · exact List.pairwise_singleton _ _
  · intro p ⟨r, member, inside⟩
    rw [List.mem_singleton.mp member] at inside
    exact points_subset_universe lower.end_le inside
  · exact fun _ => by decide

/-- **An empty overlay region stays in the map.**  The overlay `region_map_t(hash_region_t(),
1)` has the empty domain, inside every domain, and its one region is disjoint from all; the
update keeps the empty region, and `get_domain()` then fails: the hash value `0` of the empty
region adds a row of the grid that no region covers. -/
theorem update_by_empty_region_loses_domain :
    (single (⟨5, 10, KeyRange.universe⟩ : HashRegion) 0 : RegionMap Nat).getDomain =
        some ⟨5, 10, KeyRange.universe⟩ ∧
      (single empty 1 : RegionMap Nat).getDomain = some empty ∧
      regionIsSuperset ⟨5, 10, KeyRange.universe⟩ empty = true ∧
      (single (⟨5, 10, KeyRange.universe⟩ : HashRegion) 0).update (single empty 1) =
        some ⟨[(⟨5, 10, KeyRange.universe⟩, 0), (empty, 1)]⟩ ∧
      regionIsEmpty empty = true ∧
      (⟨[(⟨5, 10, KeyRange.universe⟩, 0), (empty, 1)]⟩ : RegionMap Nat).getDomain = none := by
  decide

end RegionMap

end Region
end RethinkDB
