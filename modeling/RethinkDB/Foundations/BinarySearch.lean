import Mathlib.Data.List.Basic
import Mathlib.Tactic.Common

/-!
# Binary search over a half-open window

The loop `while (beg < end) { center = beg + (end - beg) / 2; ... }` over a sequence,
steered by a three-way probe of the element at `center`: zero means found, a negative
probe sends the search left and a positive one right.  The loop becomes a function of a
fuel argument; the window shrinks on every round, so fuel equal to its width is never
exhausted before the window is empty (`find` uses the length of the sequence).

Soundness needs nothing: a returned index holds an element with probe zero.
Completeness needs the probe to be ordered along the sequence (`Ordered`): positive
before any element whose probe is non-negative.  Under that order the zero is unique and
`find` returns exactly its index.
-/

namespace BinarySearch

variable {α : Type*}

/-- The search loop over the window `[beg, stop)` with `fuel` rounds left. -/
def search (probe : α → Int) (xs : List α) : Nat → Nat → Nat → Option Nat
  | 0, _, _ => none
  | fuel + 1, beg, stop =>
      if beg < stop then
        let center := beg + (stop - beg) / 2
        match xs[center]? with
        | some x =>
            if probe x = 0 then some center
            else if probe x < 0 then search probe xs fuel beg center
            else search probe xs fuel (center + 1) stop
        | none => none
      else none

/-- The search over the whole sequence. -/
def find (probe : α → Int) (xs : List α) : Option Nat :=
  search probe xs xs.length 0 xs.length

/-- The probe is positive strictly before any element where it is non-negative: the
three-way comparison of a target with the keys of a strictly increasing sequence. -/
def Ordered (probe : α → Int) (xs : List α) : Prop :=
  xs.Pairwise fun x y => 0 ≤ probe y → 0 < probe x

variable {probe : α → Int} {xs : List α}

theorem Ordered.pos_of_lt (ordered : Ordered probe xs) {i j : Nat} (before : i < j)
    (inBounds : j < xs.length) (nonneg : 0 ≤ probe xs[j]) :
    0 < probe xs[i] :=
  List.pairwise_iff_getElem.mp ordered i j (by omega) inBounds before nonneg

/-- Under the order, a zero of the probe is unique. -/
theorem Ordered.eq_of_zero (ordered : Ordered probe xs) {i j : Nat} (iBound : i < xs.length)
    (jBound : j < xs.length) (zeroI : probe xs[i] = 0) (zeroJ : probe xs[j] = 0) : i = j := by
  rcases Nat.lt_trichotomy i j with before | same | after
  · have := ordered.pos_of_lt before jBound (by omega)
    omega
  · exact same
  · have := ordered.pos_of_lt after iBound (by omega)
    omega

theorem search_sound {fuel beg stop i : Nat} (found : search probe xs fuel beg stop = some i) :
    ∃ x, xs[i]? = some x ∧ probe x = 0 := by
  induction fuel generalizing beg stop with
  | zero => simp [search] at found
  | succ fuel ih =>
      simp only [search] at found
      split at found
      · split at found
        · rename_i x atCenter
          split at found
          · rename_i zero
            cases found
            exact ⟨x, atCenter, zero⟩
          · split at found
            · exact ih found
            · exact ih found
        · cases found
      · cases found

/-- With enough fuel, a zero inside the window is found, at its own index. -/
theorem search_complete (ordered : Ordered probe xs) {fuel beg stop k : Nat}
    (window : stop ≤ xs.length) (enough : stop - beg ≤ fuel) (lower : beg ≤ k) (upper : k < stop)
    (zero : probe xs[k] = 0) : search probe xs fuel beg stop = some k := by
  induction fuel generalizing beg stop with
  | zero => omega
  | succ fuel ih =>
      have centerBound : beg + (stop - beg) / 2 < xs.length := by omega
      simp only [search, show beg < stop by omega, if_true, List.getElem?_eq_getElem centerBound]
      by_cases atCenter : probe xs[beg + (stop - beg) / 2] = 0
      · -- The zero is unique, so the center is `k`.
        have := ordered.eq_of_zero centerBound (by omega) atCenter zero
        rw [if_pos atCenter, this]
      · have notCenter : beg + (stop - beg) / 2 ≠ k := fun same => atCenter (by simpa [same])
        by_cases negative : probe xs[beg + (stop - beg) / 2] < 0
        · -- Everything before a negative probe is positive, so `k` lies left of the center.
          have left : k < beg + (stop - beg) / 2 := by
            by_contra notLeft
            have := ordered.pos_of_lt (show beg + (stop - beg) / 2 < k by omega)
              (by omega) (by omega)
            omega
          rw [if_neg atCenter, if_pos negative]
          exact ih (by omega) (by omega) lower left zero
        · -- A positive probe sends `k` to the right of the center.
          have right : beg + (stop - beg) / 2 < k := by
            by_contra notRight
            have := ordered.pos_of_lt (show k < beg + (stop - beg) / 2 by omega)
              centerBound (by omega)
            omega
          rw [if_neg atCenter, if_neg negative]
          exact ih window (by omega) right upper zero

/-- Under the order, `find` returns exactly the index whose element has probe zero. -/
theorem find_eq_some_iff (ordered : Ordered probe xs) {i : Nat} :
    find probe xs = some i ↔ ∃ x, xs[i]? = some x ∧ probe x = 0 := by
  constructor
  · exact search_sound
  · rintro ⟨x, atI, zero⟩
    obtain ⟨bound, rfl⟩ := List.getElem?_eq_some_iff.mp atI
    exact search_complete ordered (Nat.le_refl _) (by omega) (Nat.zero_le i) bound zero

theorem find_eq_none_iff (ordered : Ordered probe xs) :
    find probe xs = none ↔ ∀ x ∈ xs, probe x ≠ 0 := by
  constructor
  · intro missing x member zero
    obtain ⟨i, bound, rfl⟩ := List.getElem_of_mem member
    have := (find_eq_some_iff ordered).mpr ⟨_, List.getElem?_eq_getElem bound, zero⟩
    simp [missing] at this
  · intro noZero
    cases found : find probe xs with
    | none => rfl
    | some i =>
        obtain ⟨x, atI, zero⟩ := (find_eq_some_iff ordered).mp found
        exact absurd zero (noZero x (List.mem_of_getElem? atI))

/-! ## The insertion point

The same loop with the three-way probe tested negative first, as `leaf::find_key` does, and a
miss that returns where the window closed.  Under the order that point splits the sequence into
the positive probes and the rest (`findIndex_split`), and a miss returns the number of positive
probes (`findIndex_snd_of_miss`).
-/

/-- The search loop that also says where the target belongs: `(true, center)` when the element
at `center` has probe zero, and `(false, beg)` when the window closes at `beg`. -/
def searchIndex (probe : α → Int) (xs : List α) : Nat → Nat → Nat → Bool × Nat
  | 0, beg, _ => (false, beg)
  | fuel + 1, beg, stop =>
      if beg < stop then
        let center := beg + (stop - beg) / 2
        match xs[center]? with
        | some x =>
            if probe x < 0 then searchIndex probe xs fuel beg center
            else if 0 < probe x then searchIndex probe xs fuel (center + 1) stop
            else (true, center)
        | none => (false, beg)
      else (false, beg)

/-- The search over the whole sequence, with its insertion point. -/
def findIndex (probe : α → Int) (xs : List α) : Bool × Nat :=
  searchIndex probe xs xs.length 0 xs.length

/-- A reported hit holds an element with probe zero. -/
theorem searchIndex_sound {fuel beg stop i : Nat}
    (found : searchIndex probe xs fuel beg stop = (true, i)) :
    ∃ x, xs[i]? = some x ∧ probe x = 0 := by
  induction fuel generalizing beg stop with
  | zero => simp [searchIndex] at found
  | succ fuel ih =>
      simp only [searchIndex] at found
      split at found
      · split at found
        · rename_i x atCenter
          split at found
          · exact ih found
          · split at found
            · exact ih found
            · rename_i notNeg notPos
              simp only [Prod.mk.injEq, true_and] at found
              subst found
              exact ⟨x, atCenter, by omega⟩
        · cases found
      · cases found

/-- A miss inside a window that holds the positive probes to its left and the negative ones to
its right closes the window at the point between them. -/
theorem searchIndex_miss (ordered : Ordered probe xs) {fuel beg stop b : Nat}
    (window : stop ≤ xs.length) (enough : stop - beg ≤ fuel) (order : beg ≤ stop)
    (below : ∀ i (h : i < xs.length), i < beg → 0 < probe xs[i])
    (above : ∀ i (h : i < xs.length), stop ≤ i → probe xs[i] < 0)
    (missed : searchIndex probe xs fuel beg stop = (false, b)) :
    b ≤ xs.length ∧ (∀ i (h : i < xs.length), i < b → 0 < probe xs[i]) ∧
      ∀ i (h : i < xs.length), b ≤ i → probe xs[i] < 0 := by
  induction fuel generalizing beg stop with
  | zero =>
      simp only [searchIndex, Prod.mk.injEq, true_and] at missed
      subst missed
      have closed : beg = stop := by omega
      subst closed
      exact ⟨window, below, above⟩
  | succ fuel ih =>
      simp only [searchIndex] at missed
      split at missed
      · rename_i open_
        have centerBound : beg + (stop - beg) / 2 < xs.length := by omega
        rw [List.getElem?_eq_getElem centerBound] at missed
        simp only at missed
        split at missed
        · -- A negative probe at the center: everything from the center on is negative.
          rename_i negative
          refine ih (by omega) (by omega) (by omega) below ?_ missed
          intro i bound after
          by_contra notNeg
          rcases Nat.lt_or_eq_of_le after with later | same
          · have := ordered.pos_of_lt later bound (by omega)
            omega
          · subst same
            exact notNeg negative
        · split at missed
          · -- A positive probe at the center: everything up to the center is positive.
            rename_i notNeg positive
            refine ih window (by omega) (by omega) ?_ above missed
            intro i bound before
            rcases Nat.lt_or_eq_of_le (Nat.lt_succ_iff.mp before) with earlier | same
            · exact ordered.pos_of_lt earlier centerBound (by omega)
            · subst same
              exact positive
          · cases missed
      · rename_i closed
        simp only [Prod.mk.injEq, true_and] at missed
        subst missed
        have same : beg = stop := by omega
        subst same
        exact ⟨window, below, above⟩

/-- A miss over the whole sequence splits it: positive probes before the returned point,
negative ones from it on. -/
theorem findIndex_miss (ordered : Ordered probe xs) {b : Nat}
    (missed : findIndex probe xs = (false, b)) :
    b ≤ xs.length ∧ (∀ i (h : i < xs.length), i < b → 0 < probe xs[i]) ∧
      ∀ i (h : i < xs.length), b ≤ i → probe xs[i] < 0 :=
  searchIndex_miss ordered (Nat.le_refl _) (by omega) (Nat.zero_le _)
    (fun i _ before => absurd before (Nat.not_lt_zero i))
    (fun i bound after => absurd bound (by omega)) missed

/-- Where the positive probes are exactly those before `b`, there are `b` of them. -/
theorem countP_pos_of_split {b : Nat} (bound : b ≤ xs.length)
    (below : ∀ i (h : i < xs.length), i < b → 0 < probe xs[i])
    (above : ∀ i (h : i < xs.length), b ≤ i → probe xs[i] < 0) :
    xs.countP (fun x => 0 < probe x) = b := by
  rw [← List.take_append_drop b xs, List.countP_append]
  have front : (xs.take b).countP (fun x => 0 < probe x) = b := by
    rw [List.countP_eq_length.mpr, List.length_take_of_le bound]
    intro x member
    obtain ⟨i, inTake, rfl⟩ := List.getElem_of_mem member
    rw [List.getElem_take]
    have := below i (by simp at inTake; omega) (by simp at inTake; omega)
    simpa using this
  have back : (xs.drop b).countP (fun x => 0 < probe x) = 0 := by
    rw [List.countP_eq_zero]
    intro x member
    obtain ⟨i, inDrop, rfl⟩ := List.getElem_of_mem member
    rw [List.getElem_drop]
    have := above (b + i) (by simp at inDrop; omega) (Nat.le_add_right b i)
    simp only [decide_eq_true_eq]
    omega
  rw [front, back, Nat.add_zero]

/-- Under the order the search reports a hit exactly when some element has probe zero. -/
theorem findIndex_fst_iff (ordered : Ordered probe xs) :
    (findIndex probe xs).1 = true ↔ ∃ x ∈ xs, probe x = 0 := by
  constructor
  · intro found
    obtain ⟨x, atIndex, zero⟩ := searchIndex_sound (show findIndex probe xs = (true, _) from
      Prod.ext found rfl)
    exact ⟨x, List.mem_of_getElem? atIndex, zero⟩
  · rintro ⟨x, member, zero⟩
    by_contra missed
    obtain ⟨-, below, above⟩ := findIndex_miss ordered (show findIndex probe xs = (false, _) from
      Prod.ext (by simpa using missed) rfl)
    obtain ⟨i, bound, rfl⟩ := List.getElem_of_mem member
    rcases Nat.lt_or_ge i (findIndex probe xs).2 with before | after
    · have := below i bound before
      omega
    · have := above i bound after
      omega

/-- A miss returns the number of elements with positive probe. -/
theorem findIndex_snd_of_miss (ordered : Ordered probe xs)
    (missed : (findIndex probe xs).1 = false) :
    (findIndex probe xs).2 = xs.countP (fun x => 0 < probe x) := by
  obtain ⟨bound, below, above⟩ := findIndex_miss ordered (show findIndex probe xs = (false, _) from
    Prod.ext missed rfl)
  exact (countP_pos_of_split bound below above).symm

/-- Hit or miss, the returned point has the positive probes before it and none from it on. -/
theorem findIndex_split (ordered : Ordered probe xs) :
    (findIndex probe xs).2 ≤ xs.length ∧
      (∀ i (h : i < xs.length), i < (findIndex probe xs).2 → 0 < probe xs[i]) ∧
      ∀ i (h : i < xs.length), (findIndex probe xs).2 ≤ i → probe xs[i] ≤ 0 := by
  cases found : (findIndex probe xs).1
  · obtain ⟨bound, below, above⟩ :=
      findIndex_miss ordered (show findIndex probe xs = (false, _) from Prod.ext found rfl)
    exact ⟨bound, below, fun i h after => Int.le_of_lt (above i h after)⟩
  · -- A hit is at the unique zero: positive before it, negative after it.
    obtain ⟨x, atIndex, zero⟩ := searchIndex_sound (show findIndex probe xs = (true, _) from
      Prod.ext found rfl)
    obtain ⟨bound, rfl⟩ := List.getElem?_eq_some_iff.mp atIndex
    refine ⟨Nat.le_of_lt bound,
      fun i h before => ordered.pos_of_lt before bound (Int.le_of_eq zero.symm), ?_⟩
    intro i h after
    rcases Nat.lt_or_eq_of_le after with later | same
    · by_contra positive
      have := ordered.pos_of_lt later h (Int.le_of_lt (Int.not_le.mp positive))
      rw [zero] at this
      exact Int.lt_irrefl 0 this
    · subst same
      exact Int.le_of_eq zero

end BinarySearch
