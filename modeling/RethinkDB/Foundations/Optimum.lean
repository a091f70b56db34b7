import Mathlib

/-!
# Keeping the best element

A running optimum holds one pair of an element and its value, or nothing before the first
value; a new pair replaces it only where the new value is strictly better (`choose`).  Where
`better` is a strict weak order on the values met, the pair kept after any sequence of
choices is `Optimal` for the pairs seen, whichever way they were split into runs whose optima
were then chosen between, and two optimal pairs for the same pairs have values neither of
which is better than the other (`Optimal.incomparable`).
-/

namespace Optimum

variable {ρ β : Type}

/-- A strict weak order on the values that satisfy `good`: irreflexive, transitive, and
incomparability is transitive (`better a c` forces `b` to be above `a` or below `c`). -/
structure StrictWeakOn (better : β → β → Bool) (good : β → Prop) : Prop where
  irrefl : ∀ a, good a → better a a = false
  trans : ∀ a b c, good a → good b → good c → better a b = true → better b c = true →
    better a c = true
  split : ∀ a b c, good a → good b → good c → better a c = true →
    better a b = true ∨ better b c = true

/-- A strict weak order read the other way round is one. -/
theorem StrictWeakOn.swap {better : β → β → Bool} {good : β → Prop}
    (order : StrictWeakOn better good) : StrictWeakOn (fun a b => better b a) good where
  irrefl a goodA := order.irrefl a goodA
  trans a b c goodA goodB goodC ba cb := order.trans c b a goodC goodB goodA cb ba
  split a b c goodA goodB goodC ca := (order.split c b a goodC goodB goodA ca).symm

/-- A relation that agrees with a strict weak order on the values concerned is one. -/
theorem StrictWeakOn.congr {better better' : β → β → Bool} {good : β → Prop}
    (order : StrictWeakOn better good) (same : ∀ a b, good a → good b → better' a b = better a b) :
    StrictWeakOn better' good where
  irrefl a goodA := (same a a goodA goodA).trans (order.irrefl a goodA)
  trans a b c goodA goodB goodC ab bc := by
    rw [same a b goodA goodB] at ab
    rw [same b c goodB goodC] at bc
    rw [same a c goodA goodC]
    exact order.trans a b c goodA goodB goodC ab bc
  split a b c goodA goodB goodC ac := by
    rw [same a c goodA goodC] at ac
    rw [same a b goodA goodB, same b c goodB goodC]
    exact order.split a b c goodA goodB goodC ac

/-- The pair kept of a running one and a new one: the new one where there was none, or where
its value is strictly better. -/
def choose (better : β → β → Bool) : Option (ρ × β) → Option (ρ × β) → Option (ρ × β)
  | out, none => out
  | none, some other => some other
  | some current, some other => if better other.2 current.2 then some other else some current

/-- `out` is one of `pairs` whose value no value of `pairs` is better than, and nothing only
where there are no pairs. -/
structure Optimal (better : β → β → Bool) (pairs : List (ρ × β)) (out : Option (ρ × β)) :
    Prop where
  none_iff : out = none ↔ pairs = []
  mem : ∀ p, out = some p → p ∈ pairs
  unbeaten : ∀ p, out = some p → ∀ q ∈ pairs, better q.2 p.2 = false

variable {better : β → β → Bool} {good : β → Prop}

theorem optimal_nil : Optimal better ([] : List (ρ × β)) none where
  none_iff := iff_of_true rfl rfl
  mem _ found := by cases found
  unbeaten _ found := by cases found

theorem Optimal.perm {pairs pairs' : List (ρ × β)} {out : Option (ρ × β)}
    (optimal : Optimal better pairs out) (perm : pairs.Perm pairs') : Optimal better pairs' out where
  none_iff := by
    rw [optimal.none_iff]
    constructor
    · intro empty
      subst empty
      exact perm.symm.eq_nil
    · intro empty
      subst empty
      exact perm.eq_nil
  mem p found := perm.mem_iff.mp (optimal.mem p found)
  unbeaten p found q member := optimal.unbeaten p found q (perm.mem_iff.mpr member)

theorem Optimal.append_nil {pairs : List (ρ × β)} {out : Option (ρ × β)}
    (optimal : Optimal better pairs out) : Optimal better (pairs ++ []) out := by
  simpa using optimal

section Choosing

variable (order : StrictWeakOn better good)
include order

/-- **Choosing between two optima** gives an optimum of all their pairs. -/
theorem Optimal.choose_append {pairs pairs' : List (ρ × β)} {out out' : Option (ρ × β)}
    (optimal : Optimal better pairs out) (optimal' : Optimal better pairs' out')
    (goods : ∀ p ∈ pairs ++ pairs', good p.2) :
    Optimal better (pairs ++ pairs') (choose better out out') := by
  have goodsLeft : ∀ p ∈ pairs, good p.2 := fun p member => goods p (List.mem_append_left _ member)
  have goodsRight : ∀ p ∈ pairs', good p.2 := fun p member =>
    goods p (List.mem_append_right _ member)
  cases out' with
  | none =>
      have empty : pairs' = [] := optimal'.none_iff.mp rfl
      subst empty
      exact optimal.append_nil
  | some other =>
      have otherMem := optimal'.mem other rfl
      have nonempty : pairs' ≠ [] := fun empty => by simpa using optimal'.none_iff.mpr empty
      cases out with
      | none =>
          have empty : pairs = [] := optimal.none_iff.mp rfl
          subst empty
          simpa [Optimum.choose] using optimal'
      | some current =>
          have currentMem := optimal.mem current rfl
          simp only [Optimum.choose]
          by_cases wins : better other.2 current.2 = true
          · -- The other value is better: it beats the current one, so nothing of `pairs` beats it.
            rw [if_pos wins]
            refine ⟨by simp [nonempty], fun p found => ?_, fun p found q member => ?_⟩
            · cases found
              exact List.mem_append_right _ otherMem
            · cases found
              rcases List.mem_append.mp member with early | late
              · cases beats : better q.2 other.2 with
                | false => rfl
                | true =>
                    have := order.trans q.2 other.2 current.2 (goodsLeft q early)
                      (goodsRight other otherMem) (goodsLeft current currentMem) beats wins
                    rw [optimal.unbeaten current rfl q early] at this
                    cases this
              · exact optimal'.unbeaten other rfl q late
          · -- The current value stays: a value of `pairs'` better than it would be better
            -- than the other value, or the other value better than the current one.
            rw [if_neg wins]
            refine ⟨by simp [nonempty], fun p found => ?_, fun p found q member => ?_⟩
            · cases found
              exact List.mem_append_left _ currentMem
            · cases found
              rcases List.mem_append.mp member with early | late
              · exact optimal.unbeaten current rfl q early
              · cases beats : better q.2 current.2 with
                | false => rfl
                | true =>
                    rcases order.split q.2 other.2 current.2 (goodsRight q late)
                      (goodsRight other otherMem) (goodsLeft current currentMem) beats with
                      above | below
                    · rw [optimal'.unbeaten other rfl q late] at above
                      cases above
                    · exact absurd below wins

/-- One more pair. -/
theorem Optimal.snoc {pairs : List (ρ × β)} {out : Option (ρ × β)}
    (optimal : Optimal better pairs out) (p : ρ × β) (goods : ∀ q ∈ pairs ++ [p], good q.2) :
    Optimal better (pairs ++ [p]) (choose better out (some p)) := by
  have single : Optimal better [p] (some p) := by
    refine ⟨iff_of_false (fun found => by cases found) (fun empty => by cases empty), ?_, ?_⟩
    · intro q found
      cases found
      exact List.mem_singleton_self _
    · intro q found r member
      cases found
      rw [List.mem_singleton.mp member]
      exact order.irrefl _ (goods p (List.mem_append_right _ (List.mem_singleton_self _)))
  exact optimal.choose_append order single goods

end Choosing

/-- Two optima of the same pairs have values neither of which is better than the other. -/
theorem Optimal.incomparable {pairs : List (ρ × β)} {p p' : ρ × β}
    (optimal : Optimal better pairs (some p)) (optimal' : Optimal better pairs (some p')) :
    better p.2 p'.2 = false ∧ better p'.2 p.2 = false :=
  ⟨optimal'.unbeaten p' rfl p (optimal.mem p rfl), optimal.unbeaten p rfl p' (optimal'.mem p' rfl)⟩

end Optimum
