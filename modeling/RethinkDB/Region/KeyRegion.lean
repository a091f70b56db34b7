import RethinkDB.Btree.Keys
import RethinkDB.Foundations.Partition

/-!
# Subtraction of key ranges

`region_subtract_many` of `region/region.cc` takes a key range apart along the subtrahends:
one subtrahend `s` splits every piece `m` into `m & [-inf, s.left)` and
`m & [s.right, +inf)`, the second only when `s.right` is a key, and drops the empty parts.
Over well-formed ranges the pieces partition the keys of the minuend outside every
subtrahend (`KeyRange.isPartition_regionSubtractMany`); the hash-region subtraction uses
the case of one subtrahend.
-/

namespace RethinkDB
namespace Btree

open Partition

/-- One subtrahend's step of `region_subtract_many`, on one piece `m`. -/
def KeyRange.subtractOne (m s : KeyRange) : List KeyRange :=
  let left := m.intersection (KeyRange.make .none StoreKey.min .«open» s.left)
  (if !left.isEmpty then [left] else []) ++
    match s.right with
    | .unbounded => []
    | .bounded key =>
        let right := m.intersection (KeyRange.make .closed key .none StoreKey.min)
        if !right.isEmpty then [right] else []

/-- `region_subtract_many(key_range_t minuend, const std::vector<key_range_t> &subtrahends)`. -/
def KeyRange.regionSubtractMany (minuend : KeyRange) (subtrahends : List KeyRange) :
    List KeyRange :=
  subtrahends.foldl (fun buf s => buf.flatMap fun m => m.subtractOne s) [minuend]

theorem KeyRange.make_none_open (l r : StoreKey) :
    KeyRange.make .none l .«open» r = ⟨StoreKey.min, .bounded r⟩ := rfl

theorem KeyRange.make_closed_none (l r : StoreKey) :
    KeyRange.make .closed l .none r = ⟨l, .unbounded⟩ := rfl

theorem KeyRange.regionSubtractMany_singleton (m s : KeyRange) :
    m.regionSubtractMany [s] = m.subtractOne s := by
  simp [KeyRange.regionSubtractMany]

/-- The keys below `bound`. -/
theorem KeyRange.mem_keys_below {bound key : StoreKey} :
    key ∈ (⟨StoreKey.min, .bounded bound⟩ : KeyRange).keys ↔ key < bound := by
  simp [KeyRange.mem_keys, StoreKey.min_le]

/-- The keys from `bound` on. -/
theorem KeyRange.mem_keys_from {bound key : StoreKey} :
    key ∈ (⟨bound, .unbounded⟩ : KeyRange).keys ↔ bound ≤ key := by
  simp [KeyRange.mem_keys]

theorem KeyRange.wellFormed_below (bound : StoreKey) :
    (⟨StoreKey.min, .bounded bound⟩ : KeyRange).WellFormed :=
  RightBound.bounded_le_bounded.mpr (StoreKey.min_le bound)

theorem KeyRange.wellFormed_from (bound : StoreKey) :
    (⟨bound, .unbounded⟩ : KeyRange).WellFormed :=
  RightBound.le_unbounded _

/-- Keeping a range only when it is not empty keeps its keys. -/
theorem KeyRange.isPartition_ifNonempty {range : KeyRange} (wellFormed : range.WellFormed) :
    IsPartition KeyRange.keys (if !range.isEmpty then [range] else []) range.keys :=
  isPartition_ite (isPartition_singleton range) fun empty =>
    KeyRange.keys_eq_empty wellFormed (by simpa using empty)

theorem KeyRange.mem_ifNonempty {range r : KeyRange}
    (member : r ∈ (if !range.isEmpty then [range] else [])) :
    r = range ∧ range.isEmpty = false := by
  cases empty : range.isEmpty <;> simp_all

section Subtraction

variable {m s : KeyRange}

/-- **One subtrahend.**  The pieces of `m.subtractOne s` partition the keys of `m` outside
`s`. -/
theorem KeyRange.isPartition_subtractOne (wellFormed : m.WellFormed)
    (wellFormed' : s.WellFormed) :
    IsPartition KeyRange.keys (m.subtractOne s) (m.keys \ s.keys) := by
  rcases s with ⟨sLeft, _ | sRight⟩
  all_goals
    have leftPart := KeyRange.isPartition_ifNonempty
      (KeyRange.wellFormed_intersection wellFormed (KeyRange.wellFormed_below sLeft))
    rw [KeyRange.keys_intersection] at leftPart
    simp only [KeyRange.subtractOne, KeyRange.make_none_open, KeyRange.make_closed_none]
  · -- Without a right bound only the keys below the subtrahend are left.
    have outside : m.keys \ (⟨sLeft, .unbounded⟩ : KeyRange).keys =
        m.keys ∩ (⟨StoreKey.min, .bounded sLeft⟩ : KeyRange).keys := by
      ext key
      simp [KeyRange.mem_keys, StoreKey.min_le]
    simpa [outside] using leftPart
  · have ordered : sLeft ≤ sRight := RightBound.bounded_le_bounded.mp wellFormed'
    have rightPart := KeyRange.isPartition_ifNonempty
      (KeyRange.wellFormed_intersection wellFormed (KeyRange.wellFormed_from sRight))
    rw [KeyRange.keys_intersection] at rightPart
    have outside : m.keys \ (⟨sLeft, .bounded sRight⟩ : KeyRange).keys =
        m.keys ∩ (⟨StoreKey.min, .bounded sLeft⟩ : KeyRange).keys ∪
          m.keys ∩ (⟨sRight, .unbounded⟩ : KeyRange).keys := by
      ext key
      simp only [Set.mem_sdiff, Set.mem_union, Set.mem_inter_iff, KeyRange.mem_keys,
        RightBound.bounded_lt_bounded, RightBound.bounded_lt_unbounded, StoreKey.min_le,
        true_and, and_true, not_and_or, not_le, not_lt]
      tauto
    have disjoint : Disjoint (m.keys ∩ (⟨StoreKey.min, .bounded sLeft⟩ : KeyRange).keys)
        (m.keys ∩ (⟨sRight, .unbounded⟩ : KeyRange).keys) := by
      refine Set.disjoint_left.mpr fun key below above => ?_
      have below : key < sLeft := KeyRange.mem_keys_below.mp below.2
      have above : sRight ≤ key := KeyRange.mem_keys_from.mp above.2
      exact absurd (lt_of_lt_of_le below (ordered.trans above)) (lt_irrefl key)
    rw [outside]
    exact leftPart.append rightPart disjoint

/-- Every piece of `m.subtractOne s` is well formed and not empty. -/
theorem KeyRange.wellFormed_of_mem_subtractOne (wellFormed : m.WellFormed) {r : KeyRange}
    (member : r ∈ m.subtractOne s) : r.WellFormed ∧ r.isEmpty = false := by
  rcases s with ⟨sLeft, _ | sRight⟩
  all_goals simp only [KeyRange.subtractOne, KeyRange.make_none_open, KeyRange.make_closed_none,
    List.mem_append, List.not_mem_nil, or_false] at member
  · obtain ⟨rfl, nonempty⟩ := KeyRange.mem_ifNonempty member
    exact ⟨KeyRange.wellFormed_intersection wellFormed (KeyRange.wellFormed_below sLeft),
      nonempty⟩
  · rcases member with member | member
    all_goals obtain ⟨rfl, nonempty⟩ := KeyRange.mem_ifNonempty member
    · exact ⟨KeyRange.wellFormed_intersection wellFormed (KeyRange.wellFormed_below sLeft),
        nonempty⟩
    · exact ⟨KeyRange.wellFormed_intersection wellFormed (KeyRange.wellFormed_from sRight),
        nonempty⟩

/-- A kept intersection is the rectangle of the two ranges' bounds. -/
theorem KeyRange.intersection_eq_of_nonempty {range other : KeyRange}
    (nonempty : (range.intersection other).isEmpty = false) :
    range.intersection other = ⟨max range.left other.left, min range.right other.right⟩ := by
  by_cases overlapping : range.overlaps other = true
  · exact KeyRange.intersection_of_overlaps overlapping
  · simp [KeyRange.intersection, overlapping, KeyRange.empty, KeyRange.isEmpty] at nonempty

/-- The bounds of a piece of `m.subtractOne s` are bounds of `m` or of `s`. -/
theorem KeyRange.bounds_of_mem_subtractOne {r : KeyRange} (member : r ∈ m.subtractOne s) :
    (RightBound.bounded r.left = .bounded m.left ∨ RightBound.bounded r.left = s.right) ∧
      (r.right = m.right ∨ r.right = .bounded s.left) := by
  rcases s with ⟨sLeft, _ | sRight⟩
  all_goals simp only [KeyRange.subtractOne, KeyRange.make_none_open, KeyRange.make_closed_none,
    List.mem_append, List.not_mem_nil, or_false] at member
  · obtain ⟨rfl, nonempty⟩ := KeyRange.mem_ifNonempty member
    rw [KeyRange.intersection_eq_of_nonempty nonempty, max_eq_left (StoreKey.min_le _)]
    exact ⟨Or.inl rfl, min_choice _ _⟩
  · rcases member with member | member
    all_goals obtain ⟨rfl, nonempty⟩ := KeyRange.mem_ifNonempty member
    all_goals rw [KeyRange.intersection_eq_of_nonempty nonempty]
    · rw [max_eq_left (StoreKey.min_le _)]
      exact ⟨Or.inl rfl, min_choice _ _⟩
    · refine ⟨?_, Or.inl (min_eq_left (RightBound.le_unbounded _))⟩
      rcases max_choice m.left sRight with same | same <;> rw [same] <;> simp

end Subtraction

/-- **Key-range subtraction is set difference.**  From a well-formed minuend and
well-formed subtrahends, `region_subtract_many` returns well-formed, non-empty ranges that
partition the keys of the minuend outside every subtrahend. -/
theorem KeyRange.isPartition_regionSubtractMany (minuend : KeyRange)
    (wellFormed : minuend.WellFormed) :
    ∀ (subtrahends : List KeyRange), (∀ s ∈ subtrahends, s.WellFormed) →
      IsPartition KeyRange.keys (minuend.regionSubtractMany subtrahends)
        {key | key ∈ minuend.keys ∧ ∀ s ∈ subtrahends, key ∉ s.keys} ∧
      ∀ r ∈ minuend.regionSubtractMany subtrahends, r.WellFormed := by
  -- The buffer after each subtrahend partitions the keys not yet subtracted.
  suffices step : ∀ (subtrahends buf : List KeyRange) (X : Set StoreKey),
      (∀ s ∈ subtrahends, s.WellFormed) → IsPartition KeyRange.keys buf X →
      (∀ r ∈ buf, r.WellFormed) →
      IsPartition KeyRange.keys
          (subtrahends.foldl (fun buf s => buf.flatMap fun m => m.subtractOne s) buf)
          {key | key ∈ X ∧ ∀ s ∈ subtrahends, key ∉ s.keys} ∧
        ∀ r ∈ subtrahends.foldl (fun buf s => buf.flatMap fun m => m.subtractOne s) buf,
          r.WellFormed by
    intro subtrahends wellFormed'
    exact step subtrahends [minuend] minuend.keys wellFormed' (isPartition_singleton minuend)
      (by simpa using wellFormed)
  intro subtrahends
  induction subtrahends with
  | nil =>
      intro buf X _ partition wellFormed
      simpa using ⟨partition, wellFormed⟩
  | cons s rest ih =>
      intro buf X wellFormed' partition wellFormedBuf
      have refined : IsPartition KeyRange.keys (buf.flatMap fun m => m.subtractOne s)
          (X \ s.keys) := by
        clear ih
        induction buf generalizing X with
        | nil =>
            rw [isPartition_nil.mp partition]
            exact isPartition_nil.mpr (Set.empty_sdiff _)
        | cons m others ihBuf =>
            have wellFormedM := wellFormedBuf m (List.mem_cons_self ..)
            rw [List.flatMap_cons]
            refine IsPartition.refine_cons (partition.subset (List.mem_cons_self ..))
              (KeyRange.isPartition_subtractOne wellFormedM (wellFormed' s (List.mem_cons_self ..)))
              (ihBuf _ partition.tail fun r member => wellFormedBuf r (List.mem_cons_of_mem m member))
      have wellFormedRefined : ∀ r ∈ buf.flatMap fun m => m.subtractOne s, r.WellFormed := by
        intro r member
        obtain ⟨m, memberM, memberR⟩ := List.mem_flatMap.mp member
        exact (KeyRange.wellFormed_of_mem_subtractOne (wellFormedBuf m memberM) memberR).1
      have sameKeys : {key | key ∈ X \ s.keys ∧ ∀ s' ∈ rest, key ∉ s'.keys} =
          {key | key ∈ X ∧ ∀ s' ∈ s :: rest, key ∉ s'.keys} := by
        ext key
        simp only [Set.mem_ofPred_eq, Set.mem_sdiff, List.forall_mem_cons]
        tauto
      rw [List.foldl_cons, ← sameKeys]
      exact ih _ _ (fun s' member => wellFormed' s' (List.mem_cons_of_mem s member)) refined
        wellFormedRefined

end Btree
end RethinkDB
