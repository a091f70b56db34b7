import Mathlib
import RethinkDB.Btree.Keys

/-!
# Joining key ranges

`region_join(const std::vector<key_range_t> &vec, key_range_t *out)` of `region/region.cc`
sorts the ranges by their left keys and walks them with a cursor, a right bound that starts at
the first left key.  Each range must begin at the cursor, which then moves to the range's right
bound: a cursor below a left key is `REGION_JOIN_BAD_REGION`, one above it
`REGION_JOIN_BAD_JOIN`, and a walk to the end joins the ranges into the first left key and the
last cursor.

Over ranges that hold keys the walk decides contiguity.  It succeeds exactly when the sorted
ranges are pairwise disjoint and each ends where the next begins, and then the join holds the
union of their keys (`joinCursor_keys`).  It fails at the first sorted pair that does not abut:
`REGION_JOIN_BAD_JOIN` then means two ranges share a key
(`not_pairwise_of_regionJoin_eq_badJoin`) and `REGION_JOIN_BAD_REGION` that the union skips a
key between two of its keys (`not_ordConnected_of_regionJoin_eq_badRegion`).  Which of the two
a list with both an overlap and a gap gets depends on which comes first in the sorted order
(`join_overlap_reported_as_gap`).
-/

namespace RethinkDB
namespace Region
namespace KeyRanges

open Btree

/-- `region_join_result_t`, with the range the code writes to `out` on `REGION_JOIN_OK`. -/
inductive KeyRangeJoinResult
  | ok (out : KeyRange)
  | badJoin
  | badRegion
  deriving DecidableEq

/-- `std::sort` with `compare_range_by_left`: the ranges in the order of their left keys.
`std::sort` leaves ranges with equal left keys in an unspecified order; this is one of them. -/
def sortByLeft (vec : List KeyRange) : List KeyRange :=
  vec.insertionSort fun r1 r2 => r1.left ≤ r2.left

/-- The loop of `region_join` from `cursor` over the sorted ranges: the cursor the loop ends
with, or the result it returns early. -/
def joinCursor (cursor : RightBound) : List KeyRange → Except KeyRangeJoinResult RightBound
  | [] => .ok cursor
  | range :: rest =>
      if RightBound.lt cursor (.bounded range.left) then .error .badRegion
      else if RightBound.lt (.bounded range.left) cursor then .error .badJoin
      else joinCursor range.right rest

/-- `region_join(const std::vector<key_range_t> &vec, key_range_t *out)`.  The sorted ranges are
empty exactly when `vec` is, where the code returns `key_range_t::empty()`. -/
def regionJoin (vec : List KeyRange) : KeyRangeJoinResult :=
  match sortByLeft vec with
  | [] => .ok KeyRange.empty
  | first :: rest =>
      match joinCursor (.bounded first.left) (first :: rest) with
      | .ok cursor => .ok ⟨first.left, cursor⟩
      | .error result => result

/-- The ranges, in their order, each end where the next begins. -/
def Abutting (ranges : List KeyRange) : Prop :=
  ranges.IsChain fun a b => a.right = .bounded b.left

/-- The keys some range of `ranges` holds. -/
def unionKeys (ranges : List KeyRange) : Set StoreKey :=
  {key | ∃ r ∈ ranges, r.containsKey key = true}

/-! ## The loop -/

section Loop

variable {cursor final : RightBound} {range first : KeyRange} {rest : List KeyRange}

theorem joinCursor_cons :
    joinCursor cursor (range :: rest) =
      if cursor < .bounded range.left then .error .badRegion
      else if .bounded range.left < cursor then .error .badJoin
      else joinCursor range.right rest := by
  simp only [joinCursor, RightBound.lt_iff]

/-- A cursor at the range's left key moves on to its right bound. -/
theorem joinCursor_cons_of_eq (meets : cursor = .bounded range.left) :
    joinCursor cursor (range :: rest) = joinCursor range.right rest := by
  rw [joinCursor_cons, meets, if_neg (lt_irrefl _), if_neg (lt_irrefl _)]

/-- A loop that reaches its end met every left key on its way. -/
theorem cursor_eq_of_joinCursor_eq_ok (done : joinCursor cursor (range :: rest) = .ok final) :
    cursor = .bounded range.left ∧ joinCursor range.right rest = .ok final := by
  rw [joinCursor_cons] at done
  split_ifs at done with below above
  exact ⟨le_antisymm (not_lt.mp above) (not_lt.mp below), done⟩

/-- The loop after the first range reaches its end exactly when the ranges abut. -/
theorem joinCursor_isOk_iff :
    ∀ {first : KeyRange} {rest : List KeyRange},
      (∃ final, joinCursor first.right rest = .ok final) ↔ Abutting (first :: rest)
  | first, [] => ⟨fun _ => List.isChain_singleton first, fun _ => ⟨_, rfl⟩⟩
  | first, range :: rest => by
      rw [Abutting, List.isChain_cons_cons, ← Abutting, ← joinCursor_isOk_iff]
      constructor
      · rintro ⟨final, done⟩
        obtain ⟨meets, done'⟩ := cursor_eq_of_joinCursor_eq_ok done
        exact ⟨meets, final, done'⟩
      · rintro ⟨meets, final, done⟩
        exact ⟨final, (joinCursor_cons_of_eq meets).trans done⟩

/-- **The joined range holds the keys of the ranges**: from the first left key to the cursor
the loop ends with, when every range holds a key. -/
theorem joinCursor_keys :
    ∀ {first : KeyRange} {rest : List KeyRange} {final : RightBound},
      joinCursor first.right rest = .ok final → (∀ r ∈ first :: rest, r.keys.Nonempty) →
        ∀ key, key ∈ unionKeys (first :: rest) ↔ first.left ≤ key ∧ .bounded key < final
  | first, [], final, done, _, key => by
      cases done
      simp [unionKeys, KeyRange.containsKey_iff]
  | first, range :: rest, final, done, nonempty, key => by
      obtain ⟨meets, done'⟩ := cursor_eq_of_joinCursor_eq_ok done
      have later := joinCursor_keys done'
        (fun r member => nonempty r (List.mem_cons_of_mem first member))
      -- The first range is `[first.left, range.left)` and the rest `[range.left, final)`.
      obtain ⟨firstKey, firstMem⟩ := nonempty first List.mem_cons_self
      have firstBelow : first.left < range.left := by
        obtain ⟨leftLe, below⟩ := KeyRange.mem_keys.mp firstMem
        rw [meets] at below
        exact lt_of_le_of_lt leftLe (RightBound.bounded_lt_bounded.mp below)
      obtain ⟨rangeKey, rangeMem⟩ := nonempty range (by simp)
      have rangeBelow : RightBound.bounded range.left < final := by
        have inLater := (later rangeKey).mp ⟨range, List.mem_cons_self, rangeMem⟩
        exact lt_of_le_of_lt (RightBound.bounded_le_bounded.mpr
          (KeyRange.mem_keys.mp rangeMem).1) inLater.2
      have split : key ∈ unionKeys (first :: range :: rest) ↔
          first.containsKey key = true ∨ key ∈ unionKeys (range :: rest) := by
        simp [unionKeys]
      rw [split, later key, KeyRange.containsKey_iff, meets, RightBound.bounded_lt_bounded]
      constructor
      · rintro (⟨leftLe, below⟩ | ⟨leftLe, below⟩)
        · exact ⟨leftLe, lt_trans (RightBound.bounded_lt_bounded.mpr below) rangeBelow⟩
        · exact ⟨le_trans firstBelow.le leftLe, below⟩
      · rintro ⟨leftLe, below⟩
        rcases lt_or_ge key range.left with lt | ge
        · exact .inl ⟨leftLe, lt⟩
        · exact .inr ⟨ge, below⟩

/-- Ranges the loop walks to the end are pairwise disjoint. -/
theorem pairwise_disjoint_of_joinCursor :
    ∀ {first : KeyRange} {rest : List KeyRange} {final : RightBound},
      joinCursor first.right rest = .ok final → (∀ r ∈ first :: rest, r.keys.Nonempty) →
        (first :: rest).Pairwise fun a b => Disjoint a.keys b.keys
  | first, [], _, _, _ => List.pairwise_singleton _ first
  | first, range :: rest, _, done, nonempty => by
      obtain ⟨meets, done'⟩ := cursor_eq_of_joinCursor_eq_ok done
      have later := joinCursor_keys done'
        (fun r member => nonempty r (List.mem_cons_of_mem first member))
      refine List.pairwise_cons.mpr ⟨fun other member => ?_,
        pairwise_disjoint_of_joinCursor done' fun r member =>
          nonempty r (List.mem_cons_of_mem first member)⟩
      -- The first range's keys lie below `range.left`, where the later ranges' keys begin.
      rw [Set.disjoint_left]
      intro key inFirst inOther
      have below := (KeyRange.mem_keys.mp inFirst).2
      have above := ((later key).mp ⟨other, member, inOther⟩).1
      rw [meets, RightBound.bounded_lt_bounded] at below
      exact absurd above (not_le.mpr below)

/-- A loop that returns early does so at the first range whose left key the cursor misses. -/
theorem joinCursor_eq_error :
    ∀ {cursor : RightBound} {ranges : List KeyRange} {result : KeyRangeJoinResult},
      joinCursor cursor ranges = .error result →
        ∃ pre range post final, ranges = pre ++ range :: post ∧ joinCursor cursor pre = .ok final ∧
          ((result = .badRegion ∧ final < .bounded range.left) ∨
            (result = .badJoin ∧ .bounded range.left < final))
  | _, [], _, failed => by cases failed
  | cursor, range :: rest, result, failed => by
      rw [joinCursor_cons] at failed
      split_ifs at failed with below above
      · cases failed
        exact ⟨[], range, rest, cursor, rfl, rfl, .inl ⟨rfl, below⟩⟩
      · cases failed
        exact ⟨[], range, rest, cursor, rfl, rfl, .inr ⟨rfl, above⟩⟩
      · have meets : cursor = .bounded range.left := le_antisymm (not_lt.mp above) (not_lt.mp below)
        obtain ⟨pre, miss, post, final, split, reached, missed⟩ := joinCursor_eq_error failed
        exact ⟨range :: pre, miss, post, final, by rw [split, List.cons_append],
          (joinCursor_cons_of_eq meets).trans reached, missed⟩

end Loop

/-! ## What the result says about the ranges -/

section Result

variable {first : KeyRange} {rest : List KeyRange}

/-- A range's keys form an interval. -/
theorem ordConnected_keys (range : KeyRange) : range.keys.OrdConnected := by
  refine ⟨fun low lowMem high highMem key between => ?_⟩
  obtain ⟨leftLe, -⟩ := KeyRange.mem_keys.mp lowMem
  obtain ⟨-, highBelow⟩ := KeyRange.mem_keys.mp highMem
  exact KeyRange.mem_keys.mpr ⟨le_trans leftLe between.1,
    lt_of_le_of_lt (RightBound.bounded_le_bounded.mpr between.2) highBelow⟩

theorem mem_unionKeys {ranges : List KeyRange} {key : StoreKey} :
    key ∈ unionKeys ranges ↔ ∃ r ∈ ranges, key ∈ r.keys :=
  Iff.rfl

theorem unionKeys_perm {ranges ranges' : List KeyRange} (perm : ranges.Perm ranges') :
    unionKeys ranges = unionKeys ranges' := by
  ext key
  simp only [mem_unionKeys, perm.mem_iff]

/-- The sorted ranges are a permutation of `vec`, in the order of their left keys. -/
theorem perm_sortByLeft (vec : List KeyRange) : (sortByLeft vec).Perm vec :=
  List.perm_insertionSort _ vec

theorem pairwise_sortByLeft (vec : List KeyRange) :
    (sortByLeft vec).Pairwise fun r1 r2 => r1.left ≤ r2.left := by
  have : Std.Total fun r1 r2 : KeyRange => r1.left ≤ r2.left := ⟨fun _ _ => le_total _ _⟩
  have : IsTrans KeyRange fun r1 r2 => r1.left ≤ r2.left := ⟨fun _ _ _ => le_trans⟩
  exact List.pairwise_insertionSort _ vec

/-- `region_join` on the sorted ranges `first :: rest`. -/
theorem regionJoin_eq (sorted : sortByLeft vec = first :: rest) :
    regionJoin vec =
      match joinCursor first.right rest with
      | .ok cursor => .ok ⟨first.left, cursor⟩
      | .error result => result := by
  rw [regionJoin, sorted]
  dsimp only
  rw [joinCursor_cons_of_eq rfl]

variable {pre post : List KeyRange} {miss : KeyRange}
  (ordered : ((first :: pre) ++ miss :: post).Pairwise fun r1 r2 => r1.left ≤ r2.left)
  (nonempty : ∀ r ∈ (first :: pre) ++ miss :: post, r.keys.Nonempty)

include nonempty in
/-- Where the loop stops at `miss`, the ranges before it hold the keys from the first left key
to the cursor. -/
theorem covered_of_reached {final : RightBound} (reached : joinCursor first.right pre = .ok final)
    (key : StoreKey) :
    key ∈ unionKeys (first :: pre) ↔ first.left ≤ key ∧ .bounded key < final :=
  joinCursor_keys reached (fun r member => nonempty r (List.mem_append_left _ member)) key

include ordered in
theorem left_le_of_missed : first.left ≤ miss.left :=
  (List.pairwise_append.mp ordered).2.2 first List.mem_cons_self miss List.mem_cons_self

include ordered nonempty in
/-- A cursor past the left key of `miss` finds two ranges with a common key: `miss.left` lies
in an earlier range and in `miss`. -/
theorem not_pairwise_of_overshoot {final : RightBound}
    (reached : joinCursor first.right pre = .ok final)
    (overshoots : RightBound.bounded miss.left < final) :
    ¬((first :: pre) ++ miss :: post).Pairwise fun a b => Disjoint a.keys b.keys := by
  obtain ⟨earlier, earlierMem, inEarlier⟩ :=
    (covered_of_reached nonempty reached miss.left).mpr
      ⟨left_le_of_missed ordered, overshoots⟩
  have inMiss := KeyRange.left_mem_keys_of_nonempty (nonempty miss (by simp))
  intro disjoint
  exact Set.disjoint_left.mp ((List.pairwise_append.mp disjoint).2.2 earlier earlierMem miss
    List.mem_cons_self) inEarlier inMiss

include ordered nonempty in
/-- A cursor short of the left key of `miss` is a key no range holds, between the first left key
and `miss.left`. -/
theorem not_ordConnected_of_short {final : RightBound}
    (reached : joinCursor first.right pre = .ok final)
    (short : final < .bounded miss.left) :
    ¬(unionKeys ((first :: pre) ++ miss :: post)).OrdConnected := by
  -- The cursor is a key: nothing lies above the unbounded bound.
  obtain ⟨gap, rfl⟩ : ∃ gap, final = .bounded gap := by
    cases final with
    | unbounded => exact absurd short (RightBound.not_unbounded_lt _)
    | bounded gap => exact ⟨gap, rfl⟩
  have covered := covered_of_reached nonempty reached
  have gapBelow : gap < miss.left := RightBound.bounded_lt_bounded.mp short
  have notCovered : gap ∉ unionKeys ((first :: pre) ++ miss :: post) := by
    rintro ⟨r, member, inR⟩
    rcases List.mem_append.mp member with early | late
    · exact lt_irrefl _ ((covered gap).mp ⟨r, early, inR⟩).2
    · -- Every later range begins at or after `miss.left`, above the gap.
      have leftLe : miss.left ≤ r.left := by
        rcases List.mem_cons.mp late with rfl | inPost
        · exact le_rfl
        · exact (List.pairwise_cons.mp (List.pairwise_append.mp ordered).2.1).1 r inPost
      exact absurd (le_trans leftLe (KeyRange.mem_keys.mp inR).1) (not_le.mpr gapBelow)
  have inFirst := KeyRange.left_mem_keys_of_nonempty (nonempty first List.mem_cons_self)
  have inMiss := KeyRange.left_mem_keys_of_nonempty (nonempty miss (by simp))
  have firstLe : first.left ≤ gap :=
    (RightBound.bounded_lt_bounded.mp ((covered first.left).mp ⟨first, List.mem_cons_self,
      inFirst⟩).2).le
  intro connected
  exact notCovered (connected.out ⟨first, List.mem_cons_self, inFirst⟩
    ⟨miss, by simp, inMiss⟩ ⟨firstLe, gapBelow.le⟩)

end Result

/-! ## The join of a list of ranges -/

section Join

variable {vec : List KeyRange} {first : KeyRange} {rest : List KeyRange}

theorem joinCursor_of_regionJoin_eq_ok {out : KeyRange} (sorted : sortByLeft vec = first :: rest)
    (joined : regionJoin vec = .ok out) :
    joinCursor first.right rest = .ok out.right ∧ out.left = first.left := by
  rw [regionJoin_eq sorted] at joined
  cases loop : joinCursor first.right rest with
  | ok cursor =>
      simp only [loop, KeyRangeJoinResult.ok.injEq] at joined
      subst joined
      exact ⟨rfl, rfl⟩
  | error early =>
      simp only [loop] at joined
      -- The loop returns only the two failures early.
      obtain ⟨_, _, _, _, _, _, ⟨same, -⟩ | ⟨same, -⟩⟩ := joinCursor_eq_error loop
      all_goals rw [same] at joined; cases joined

theorem joinCursor_of_regionJoin_eq_error {result : KeyRangeJoinResult}
    (sorted : sortByLeft vec = first :: rest) (failed : regionJoin vec = result)
    (notOk : ∀ out, result ≠ .ok out) : joinCursor first.right rest = .error result := by
  rw [regionJoin_eq sorted] at failed
  cases loop : joinCursor first.right rest with
  | ok cursor =>
      simp only [loop] at failed
      exact absurd failed.symm (notOk _)
  | error early =>
      simp only [loop] at failed
      rw [failed]

/-- A join that fails stops at a sorted range `miss` whose left key the cursor misses, after
the ranges before it abut. -/
theorem regionJoin_eq_error {result : KeyRangeJoinResult} (failed : regionJoin vec = result)
    (notOk : ∀ out, result ≠ .ok out) :
    ∃ first pre miss post final, sortByLeft vec = (first :: pre) ++ miss :: post ∧
      joinCursor first.right pre = .ok final ∧
      ((result = .badRegion ∧ final < .bounded miss.left) ∨
        (result = .badJoin ∧ .bounded miss.left < final)) := by
  cases sorted : sortByLeft vec with
  | nil =>
      rw [regionJoin, sorted] at failed
      exact absurd failed.symm (notOk _)
  | cons first rest =>
      obtain ⟨pre, miss, post, final, split, reached, missed⟩ :=
        joinCursor_eq_error (joinCursor_of_regionJoin_eq_error sorted failed notOk)
      exact ⟨first, pre, miss, post, final, by rw [split, List.cons_append], reached, missed⟩

variable (nonempty : ∀ r ∈ vec, r.keys.Nonempty)
include nonempty

theorem nonempty_of_sortByLeft_eq (sorted : sortByLeft vec = first :: rest) :
    ∀ r ∈ first :: rest, r.keys.Nonempty :=
  fun r member => nonempty r ((perm_sortByLeft vec).mem_iff.mp (sorted ▸ member))

/-- A join holds exactly the keys of the ranges. -/
theorem mem_keys_of_regionJoin_eq_ok {out : KeyRange} (joined : regionJoin vec = .ok out)
    (key : StoreKey) : key ∈ out.keys ↔ key ∈ unionKeys vec := by
  cases sorted : sortByLeft vec with
  | nil =>
      -- Only the empty list sorts to nothing, and it joins to the empty range.
      have empty : vec = [] := (sorted ▸ perm_sortByLeft vec).symm.eq_nil
      subst empty
      cases joined
      simp [KeyRange.keys_eq_empty KeyRange.wellFormed_empty rfl, unionKeys]
  | cons first rest =>
      obtain ⟨loop, leftEq⟩ := joinCursor_of_regionJoin_eq_ok sorted joined
      rw [← unionKeys_perm (perm_sortByLeft vec), sorted,
        joinCursor_keys loop (nonempty_of_sortByLeft_eq nonempty sorted) key, KeyRange.mem_keys,
        leftEq]

/-- The union of the ranges is an interval when they join. -/
theorem ordConnected_of_regionJoin_eq_ok {out : KeyRange} (joined : regionJoin vec = .ok out) :
    (unionKeys vec).OrdConnected := by
  have same : unionKeys vec = out.keys :=
    Set.ext fun key => (mem_keys_of_regionJoin_eq_ok nonempty joined key).symm
  rw [same]
  exact ordConnected_keys out

theorem not_pairwise_of_regionJoin_eq_badJoin (failed : regionJoin vec = .badJoin) :
    ¬vec.Pairwise fun a b => Disjoint a.keys b.keys := by
  obtain ⟨first, pre, miss, post, final, sorted, reached, missed⟩ :=
    regionJoin_eq_error failed fun _ => by simp
  have overshoots : RightBound.bounded miss.left < final := by
    rcases missed with ⟨same, -⟩ | ⟨-, above⟩
    · cases same
    · exact above
  have ordered := pairwise_sortByLeft vec
  rw [sorted] at ordered
  rw [← (perm_sortByLeft vec).pairwise_iff fun apart => Disjoint.symm apart, sorted]
  exact not_pairwise_of_overshoot ordered (nonempty_of_sortByLeft_eq nonempty sorted) reached
    overshoots

theorem not_ordConnected_of_regionJoin_eq_badRegion (failed : regionJoin vec = .badRegion) :
    ¬(unionKeys vec).OrdConnected := by
  obtain ⟨first, pre, miss, post, final, sorted, reached, missed⟩ :=
    regionJoin_eq_error failed fun _ => by simp
  have short : final < .bounded miss.left := by
    rcases missed with ⟨-, below⟩ | ⟨same, -⟩
    · exact below
    · cases same
  have ordered := pairwise_sortByLeft vec
  rw [sorted] at ordered
  rw [← unionKeys_perm (perm_sortByLeft vec), sorted]
  exact not_ordConnected_of_short ordered (nonempty_of_sortByLeft_eq nonempty sorted) reached short

/-- Disjoint ranges with no gap between them join. -/
theorem regionJoin_eq_ok_of_pairwise (disjoint : vec.Pairwise fun a b => Disjoint a.keys b.keys)
    (connected : (unionKeys vec).OrdConnected) : ∃ out, regionJoin vec = .ok out := by
  cases joined : regionJoin vec with
  | ok out => exact ⟨out, rfl⟩
  | badJoin => exact absurd disjoint (not_pairwise_of_regionJoin_eq_badJoin nonempty joined)
  | badRegion =>
      exact absurd connected (not_ordConnected_of_regionJoin_eq_badRegion nonempty joined)

/-- Sorted ranges that join abut and are pairwise disjoint. -/
theorem abutting_of_regionJoin_eq_ok {out : KeyRange} (joined : regionJoin vec = .ok out) :
    (sortByLeft vec).Pairwise (fun a b => Disjoint a.keys b.keys) ∧ Abutting (sortByLeft vec) := by
  cases sorted : sortByLeft vec with
  | nil => exact ⟨List.Pairwise.nil, List.IsChain.nil⟩
  | cons first rest =>
      obtain ⟨loop, -⟩ := joinCursor_of_regionJoin_eq_ok sorted joined
      exact ⟨pairwise_disjoint_of_joinCursor loop (nonempty_of_sortByLeft_eq nonempty sorted),
        joinCursor_isOk_iff.mp ⟨_, loop⟩⟩

end Join

/-- Abutting ranges that hold keys cover an interval. -/
theorem ordConnected_of_abutting {ranges : List KeyRange} (abutting : Abutting ranges)
    (nonempty : ∀ r ∈ ranges, r.keys.Nonempty) : (unionKeys ranges).OrdConnected := by
  cases ranges with
  | nil =>
      have empty : unionKeys [] = ∅ := by simp [unionKeys]
      rw [empty]
      exact Set.ordConnected_empty
  | cons first rest =>
      obtain ⟨final, loop⟩ := joinCursor_isOk_iff.mpr abutting
      have same : unionKeys (first :: rest) = (⟨first.left, final⟩ : KeyRange).keys :=
        Set.ext fun key => (joinCursor_keys loop nonempty key).trans
          (@KeyRange.mem_keys ⟨first.left, final⟩ key).symm
      rw [same]
      exact ordConnected_keys _

/-- **`region_join` decides whether key ranges tile an interval**, for ranges that hold keys: it
joins them exactly when, sorted by left key, they are pairwise disjoint and each ends where the
next begins, and the join then holds their keys; `REGION_JOIN_BAD_JOIN` means two of them share
a key, `REGION_JOIN_BAD_REGION` that their union skips a key, and ranges with neither join. -/
theorem key_range_join_decides_contiguity {vec : List KeyRange}
    (nonempty : ∀ r ∈ vec, r.keys.Nonempty) :
    ((∃ out, regionJoin vec = .ok out) ↔
      ∃ sorted : List KeyRange, sorted.Perm vec ∧ sorted.Pairwise (fun a b => a.left ≤ b.left) ∧
        sorted.Pairwise (fun a b => Disjoint a.keys b.keys) ∧ Abutting sorted) ∧
    (∀ out, regionJoin vec = .ok out →
      ∀ key, out.containsKey key = true ↔ ∃ r ∈ vec, r.containsKey key = true) ∧
    (regionJoin vec = .badJoin → ¬vec.Pairwise fun a b => Disjoint a.keys b.keys) ∧
    (regionJoin vec = .badRegion → ¬(unionKeys vec).OrdConnected) ∧
    (vec.Pairwise (fun a b => Disjoint a.keys b.keys) → (unionKeys vec).OrdConnected →
      ∃ out, regionJoin vec = .ok out) := by
  refine ⟨⟨?_, ?_⟩, fun out joined => mem_keys_of_regionJoin_eq_ok nonempty joined,
    not_pairwise_of_regionJoin_eq_badJoin nonempty,
    not_ordConnected_of_regionJoin_eq_badRegion nonempty, regionJoin_eq_ok_of_pairwise nonempty⟩
  · rintro ⟨out, joined⟩
    obtain ⟨disjoint, abutting⟩ := abutting_of_regionJoin_eq_ok nonempty joined
    exact ⟨sortByLeft vec, perm_sortByLeft vec, pairwise_sortByLeft vec, disjoint, abutting⟩
  · -- Any sorted order that abuts shows the ranges disjoint and their union an interval.
    rintro ⟨sorted, perm, -, disjoint, abutting⟩
    apply regionJoin_eq_ok_of_pairwise nonempty
    · exact (perm.pairwise_iff fun apart => Disjoint.symm apart).mp disjoint
    · rw [← unionKeys_perm perm]
      exact ordConnected_of_abutting abutting fun r member => nonempty r (perm.mem_iff.mp member)

/-- `["\x01", "\x02")` and `["\x02", "\x03")`. -/
def abuttingPair : List KeyRange :=
  [⟨StoreKey.ofByte 1, .bounded (StoreKey.ofByte 2)⟩,
    ⟨StoreKey.ofByte 2, .bounded (StoreKey.ofByte 3)⟩]

theorem key_range_join_abutting_pair :
    (∀ r ∈ abuttingPair, r.keys.Nonempty) ∧
    ((∃ out, regionJoin abuttingPair = .ok out) ↔
      ∃ sorted : List KeyRange, sorted.Perm abuttingPair ∧
        sorted.Pairwise (fun a b => a.left ≤ b.left) ∧
        sorted.Pairwise (fun a b => Disjoint a.keys b.keys) ∧ Abutting sorted) ∧
    (∀ out, regionJoin abuttingPair = .ok out →
      ∀ key, out.containsKey key = true ↔ ∃ r ∈ abuttingPair, r.containsKey key = true) ∧
    (regionJoin abuttingPair = .badJoin →
      ¬abuttingPair.Pairwise fun a b => Disjoint a.keys b.keys) ∧
    (regionJoin abuttingPair = .badRegion → ¬(unionKeys abuttingPair).OrdConnected) ∧
    (abuttingPair.Pairwise (fun a b => Disjoint a.keys b.keys) →
      (unionKeys abuttingPair).OrdConnected → ∃ out, regionJoin abuttingPair = .ok out) := by
  have nonempty : ∀ r ∈ abuttingPair, r.keys.Nonempty := by
    intro r member
    simp only [abuttingPair, List.mem_cons, List.not_mem_nil, or_false] at member
    rcases member with rfl | rfl
    · exact ⟨StoreKey.ofByte 1, show KeyRange.containsKey _ _ = true by decide⟩
    · exact ⟨StoreKey.ofByte 2, show KeyRange.containsKey _ _ = true by decide⟩
  exact ⟨nonempty, key_range_join_decides_contiguity nonempty⟩

example : regionJoin abuttingPair = .ok ⟨StoreKey.ofByte 1, .bounded (StoreKey.ofByte 3)⟩ := by
  decide

/-- `["\x01", "\x02")`, `["\x03", "\x04")` and `["\x03", "\x05")`: a gap at `"\x02"`
before two ranges that share `"\x03"`. -/
def gapThenOverlap : List KeyRange :=
  [⟨StoreKey.ofByte 1, .bounded (StoreKey.ofByte 2)⟩,
    ⟨StoreKey.ofByte 3, .bounded (StoreKey.ofByte 4)⟩,
    ⟨StoreKey.ofByte 3, .bounded (StoreKey.ofByte 5)⟩]

/-- Ranges that overlap are reported as a gap when the gap comes first in the sorted order. -/
theorem join_overlap_reported_as_gap :
    regionJoin gapThenOverlap = .badRegion ∧
      ¬gapThenOverlap.Pairwise fun a b => Disjoint a.keys b.keys := by
  refine ⟨by decide, fun disjoint => ?_⟩
  have apart : Disjoint (⟨StoreKey.ofByte 3, .bounded (StoreKey.ofByte 4)⟩ : KeyRange).keys
      (⟨StoreKey.ofByte 3, .bounded (StoreKey.ofByte 5)⟩ : KeyRange).keys :=
    (List.pairwise_cons.mp (List.pairwise_cons.mp disjoint).2).1 _ List.mem_cons_self
  exact Set.disjoint_left.mp apart
    (show KeyRange.containsKey _ (StoreKey.ofByte 3) = true by decide)
    (show KeyRange.containsKey _ (StoreKey.ofByte 3) = true by decide)

end KeyRanges
end Region
end RethinkDB
