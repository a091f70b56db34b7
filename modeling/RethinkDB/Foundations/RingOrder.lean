import Mathlib.Tactic.Common

/-!
# The order of slots around a ring

A ring of `n` slots that is written one slot after the other keeps its contents in the order
of writing, read around the ring from the slot after the last one written.  Here that order is
stated without `%`: the slot after `h` wraps once at most, and so every fact below is linear
arithmetic once the definitions are unfolded.
-/

namespace RingOrder

variable {n h i j : Nat}

/-- The slot after `h` around a ring of `n` slots. -/
def next (n h : Nat) : Nat := if h + 1 ≥ n then 0 else h + 1

/-- Around the ring from the slot just after `h` (so that `h` comes last), slot `i` comes
before slot `j`: first the slots above `h` in increasing order, then those up to `h`. -/
def Before (h i j : Nat) : Prop := h < i ∧ (j ≤ h ∨ i < j) ∨ i ≤ h ∧ j ≤ h ∧ i < j

instance (h i j : Nat) : Decidable (Before h i j) :=
  inferInstanceAs (Decidable (_ ∨ _))

theorem next_lt (positive : 0 < n) : next n h < n := by
  unfold next
  split <;> omega

/-- In a ring of two slots or more the slot after `h` is another slot. -/
theorem next_ne (two : 2 ≤ n) (lt : h < n) : next n h ≠ h := by
  unfold next
  split <;> omega

/-- `h` comes last. -/
theorem not_before_last : ¬Before h h j := by
  unfold Before
  omega

/-- Every other slot comes before `h`. -/
theorem before_last (ne : i ≠ h) : Before h i h := by
  unfold Before
  omega

/-- Up to `h`, the order is the order of the slots. -/
theorem before_of_lt (lt : i < j) (le : j ≤ h) : Before h i j :=
  Or.inr ⟨Nat.le_trans (Nat.le_of_lt lt) le, le, lt⟩

/-- Moving the last slot on by one moves the slot after it from the front of the order to its
end, and leaves the order of all the other slots alone. -/
theorem before_next_iff (lt : h < n) (iLt : i < n) (jLt : j < n) (iNe : i ≠ next n h)
    (jNe : j ≠ next n h) : Before (next n h) i j ↔ Before h i j := by
  unfold Before next at *
  by_cases wrap : h + 1 ≥ n
  · simp only [if_pos wrap] at iNe jNe ⊢
    omega
  · simp only [if_neg wrap] at iNe jNe ⊢
    omega

end RingOrder
