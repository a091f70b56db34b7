import Mathlib.Data.Nat.Count
import Mathlib.Data.List.GetD

/-!
# Counting positions

A state machine that keeps a tally of the items of a list in some condition (how many have
finished, how many have left a queue) keeps it right when each of its steps changes the
condition at one position at most.  `Nat.count p n` is the number of positions below `n` where
`p` holds; here is how it moves when `p` changes at one position, and what a tally that has
reached the number of all candidates says.
-/

namespace PositionCount

open Nat

variable {n : Nat} {p q r : Nat → Prop} [DecidablePred p] [DecidablePred q] [DecidablePred r]

/-- Predicates that agree below `n` count alike. -/
theorem count_congr (same : ∀ i < n, (q i ↔ p i)) : count q n = count p n := by
  induction n with
  | zero => rfl
  | succ n ih =>
    rw [count_succ, count_succ, ih fun i lt => same i (Nat.lt_succ_of_lt lt)]
    by_cases holds : p n
    · rw [if_pos holds, if_pos ((same n (Nat.lt_succ_self n)).mpr holds)]
    · rw [if_neg holds, if_neg fun holds' => holds ((same n (Nat.lt_succ_self n)).mp holds')]

/-- Where a predicate starts to hold at one position more, the count goes up by one. -/
theorem count_of_flip {j : Nat} (lt : j < n) (before : ¬p j) (after : q j)
    (same : ∀ i < n, i ≠ j → (q i ↔ p i)) : count q n = count p n + 1 := by
  induction n with
  | zero => exact absurd lt (Nat.not_lt_zero j)
  | succ n ih =>
    rw [count_succ, count_succ]
    by_cases atTop : j = n
    · subst atTop
      have below : count q j = count p j :=
        count_congr fun i lt' => same i (Nat.lt_succ_of_lt lt') (Nat.ne_of_lt lt')
      rw [below, if_pos after, if_neg before]
    · have inside : j < n := Nat.lt_of_le_of_ne (Nat.le_of_lt_succ lt) atTop
      have top := same n (Nat.lt_succ_self n) (Ne.symm atTop)
      rw [ih inside fun i lt' ne => same i (Nat.lt_succ_of_lt lt') ne]
      by_cases holds : p n
      · rw [if_pos holds, if_pos (top.mpr holds)]
      · rw [if_neg holds, if_neg fun holds' => holds (top.mp holds')]

/-- When as many positions of `r` satisfy `p` as there are positions of `r`, all of them do. -/
theorem of_count_and_eq (full : count (fun i => r i ∧ p i) n = count r n) {i : Nat} (lt : i < n)
    (holds : r i) : p i := by
  by_contra missing
  -- the positions of `r` below `n` without `i` still hold every position of `r ∧ p`
  have fewer : count (fun k => r k ∧ p k) n ≤ count (fun k => r k ∧ k ≠ i) n :=
    count_mono_left fun k _ both => ⟨both.1, fun eq => missing (eq ▸ both.2)⟩
  have dropped : count r n = count (fun k => r k ∧ k ≠ i) n + 1 :=
    count_of_flip lt (fun both => both.2 rfl) holds fun k _ ne =>
      ⟨fun holds' => ⟨holds', ne⟩, fun both => both.1⟩
  omega

/-- The count of a list is the number of its positions whose item passes the test. -/
theorem countP_eq_count {α : Type} (l : List α) (test : α → Bool) :
    l.countP test = count (fun i => l[i]?.any test = true) l.length := by
  induction l using List.reverseRecOn with
  | nil => rfl
  | append_singleton l a ih =>
    rw [List.countP_append, List.length_append, List.length_singleton, count_succ, ih]
    have before : count (fun i => (l ++ [a])[i]?.any test = true) l.length =
        count (fun i => l[i]?.any test = true) l.length :=
      count_congr fun i lt => by rw [List.getElem?_append_left lt]
    rw [before, List.getElem?_append_right (Nat.le_refl _), Nat.sub_self]
    cases holds : test a <;> simp [holds]

/-- A predicate counted at most once below `n` holds at one position below `n` at most. -/
theorem eq_of_count_le_one (atMostOne : count p n ≤ 1) {i j : Nat} (iLt : i < n) (jLt : j < n)
    (atI : p i) (atJ : p j) : i = j := by
  rw [count_eq_card_filter_range] at atMostOne
  exact Finset.card_le_one.mp atMostOne i (by simp [iLt, atI]) j (by simp [jLt, atJ])

end PositionCount
