import Mathlib

/-!
# Merging sorted streams

A k-way merge takes, again and again, a least head of the streams and advances the stream it
heads.  `pickBest` scans the streams in order, and a head replaces the best one so far where
it is `le` it, so that of equal least heads the last is taken; the merge stops at the first
least head that is out of range.  Where `le` is a total preorder, each stream is sorted and
the range is closed downwards, the merge is sorted and holds exactly the elements in range,
each once (`mergeLoop_spec`).
-/

namespace SortedMerge

variable {α : Type} (le : α → α → Bool)

/-- One stream scanned: its head becomes the best where there was none, or where it is `le`
the best head. -/
def pickStep (best : Option (Nat × α)) (i : Nat) : List α → Option (Nat × α)
  | [] => best
  | head :: _ =>
      match best with
      | none => some (i, head)
      | some (_, current) => if le head current then some (i, head) else best

/-- The best head of the streams from index `i` on, after `best`, with the index of its
stream. -/
def pickBest : Option (Nat × α) → Nat → List (List α) → Option (Nat × α)
  | best, _, [] => best
  | best, i, stream :: streams => pickBest (pickStep le best i stream) (i + 1) streams

theorem modify_middle {β : Type} (before after : List β) (x : β) (g : β → β) :
    (before ++ x :: after).modify before.length g = before ++ g x :: after := by
  induction before with
  | nil => exact List.modify_zero_cons g x after
  | cons y before ih =>
      rw [List.cons_append, List.length_cons, List.modify_succ_cons, ih]
      rfl

theorem pickStep_eq_none {best : Option (Nat × α)} {i : Nat} {stream : List α}
    (picked : pickStep le best i stream = none) : best = none ∧ stream = [] := by
  cases stream with
  | nil => exact ⟨picked, rfl⟩
  | cons head tail =>
      cases best with
      | none => cases picked
      | some c =>
          simp only [pickStep] at picked
          split at picked <;> cases picked

/-- A step keeps the best head, or puts the stream's head in its place. -/
theorem pickStep_cases (best : Option (Nat × α)) (i : Nat) (stream : List α) :
    pickStep le best i stream = best ∨
      ∃ head tail, stream = head :: tail ∧ pickStep le best i stream = some (i, head) := by
  cases stream with
  | nil => exact Or.inl rfl
  | cons head tail =>
      cases best with
      | none => exact Or.inr ⟨head, tail, rfl, rfl⟩
      | some c =>
          by_cases below : le head c.2 = true
          · exact Or.inr ⟨head, tail, rfl, by simp [pickStep, below]⟩
          · exact Or.inl (by simp [pickStep, below])

section Preorder

variable {le} (total : Std.Total fun a b => le a b = true)
  (trans : IsTrans α fun a b => le a b = true)

include total in
/-- The head a step keeps is `le` the best head before it and the stream's head. -/
theorem pickStep_least {best : Option (Nat × α)} {i : Nat} {stream : List α} {c : Nat × α}
    (picked : pickStep le best i stream = some c) :
    (∀ b, best = some b → le c.2 b.2 = true) ∧ ∀ x ∈ stream.head?, le c.2 x = true := by
  have refl : ∀ a, le a a = true := fun a => (total.total a a).elim id id
  cases stream with
  | nil =>
      -- An empty stream leaves the best head as it was.
      rw [pickStep] at picked
      subst picked
      constructor
      · intro b found
        cases found
        exact refl _
      · intro x member
        cases member
  | cons head tail =>
      have headed : ∀ x ∈ (head :: tail).head?, x = head := by
        intro x member
        rw [List.head?_cons, Option.mem_some_iff] at member
        exact member.symm
      cases best with
      | none =>
          cases picked
          constructor
          · intro b found
            cases found
          · intro x member
            rw [headed x member]
            exact refl _
      | some b =>
          by_cases below : le head b.2 = true
          · have taken : c = (i, head) := by simpa [pickStep, below] using picked.symm
            subst taken
            constructor
            · intro b' found
              cases found
              exact below
            · intro x member
              rw [headed x member]
              exact refl _
          · -- The best head stays: the stream's head is not `le` it, so it is `le` the head.
            have kept : c = b := by simpa [pickStep, below] using picked.symm
            subst kept
            constructor
            · intro b' found
              cases found
              exact refl _
            · intro x member
              rw [headed x member]
              exact (total.total head c.2).resolve_left below

end Preorder

theorem pickBest_eq_none {best : Option (Nat × α)} {i : Nat} {streams : List (List α)}
    (picked : pickBest le best i streams = none) : best = none ∧ ∀ s ∈ streams, s = [] := by
  induction streams generalizing best i with
  | nil => exact ⟨picked, fun s member => by cases member⟩
  | cons stream streams ih =>
      obtain ⟨none', rest⟩ := ih picked
      obtain ⟨noneBefore, empty⟩ := pickStep_eq_none le none'
      refine ⟨noneBefore, fun s member => ?_⟩
      rcases List.mem_cons.mp member with here | later
      · rw [here, empty]
      · exact rest s later

/-- The best head is the one given, or the head of one of the streams, at its index. -/
theorem pickBest_mem {best : Option (Nat × α)} {i : Nat} (streams : List (List α)) :
    pickBest le best i streams = best ∨
      ∃ before head tail after, streams = before ++ (head :: tail) :: after ∧
        pickBest le best i streams = some (i + before.length, head) := by
  induction streams generalizing best i with
  | nil => exact Or.inl rfl
  | cons stream streams ih =>
      rcases @ih (pickStep le best i stream) (i + 1) with kept | ⟨before, head, tail, after, split,
        found⟩
      · rcases pickStep_cases le best i stream with same | ⟨head, tail, isCons, headed⟩
        · exact Or.inl (kept.trans same)
        · refine Or.inr ⟨[], head, tail, streams, by rw [isCons]; rfl, ?_⟩
          exact kept.trans headed
      · refine Or.inr ⟨stream :: before, head, tail, after, by rw [split]; rfl, ?_⟩
        rw [List.length_cons]
        rw [pickBest, found]
        congr 2
        omega

/-- From nothing, the best head heads one of the streams. -/
theorem pickBest_split {streams : List (List α)} {j : Nat} {head : α}
    (picked : pickBest le none 0 streams = some (j, head)) :
    ∃ before tail after, streams = before ++ (head :: tail) :: after ∧ j = before.length := by
  rcases @pickBest_mem α le none 0 streams with kept | ⟨before, head', tail, after, split, found⟩
  · rw [picked] at kept
    cases kept
  · rw [picked, Nat.zero_add] at found
    cases found
    exact ⟨before, tail, after, split, rfl⟩

section Preorder

variable {le} (total : Std.Total fun a b => le a b = true)
  (trans : IsTrans α fun a b => le a b = true)
include total trans

/-- The best head is `le` the head given and the head of every stream. -/
theorem pickBest_least {best : Option (Nat × α)} {i : Nat} {streams : List (List α)}
    {c : Nat × α} (picked : pickBest le best i streams = some c) :
    (∀ b, best = some b → le c.2 b.2 = true) ∧ ∀ s ∈ streams, ∀ x ∈ s.head?, le c.2 x = true := by
  induction streams generalizing best i with
  | nil =>
      rw [pickBest] at picked
      subst picked
      constructor
      · intro b found
        cases found
        exact (total.total _ _).elim id id
      · intro s member
        cases member
  | cons stream streams ih =>
      obtain ⟨belowStep, belowRest⟩ := ih picked
      cases stepped : pickStep le best i stream with
      | none =>
          -- Nothing was best and the stream is empty.
          obtain ⟨noneBefore, empty⟩ := pickStep_eq_none le stepped
          constructor
          · intro b found
            rw [noneBefore] at found
            cases found
          intro s member
          rcases List.mem_cons.mp member with here | later
          · rw [here, empty]
            intro x member
            cases member
          · exact belowRest s later
      | some c' =>
          obtain ⟨stepBelow, stepHead⟩ := pickStep_least total stepped
          have below := belowStep c' stepped
          refine ⟨fun b found => trans.trans _ _ _ below (stepBelow b found), fun s member => ?_⟩
          rcases List.mem_cons.mp member with here | later
          · rw [here]
            exact fun x headed => trans.trans _ _ _ below (stepHead x headed)
          · exact belowRest s later

end Preorder

/-- The sum of the stream lengths falls by one as a stream is advanced. -/
theorem sum_lengths_advance (before after : List (List α)) (head : α) (tail : List α) :
    ((before ++ tail :: after).map List.length).sum + 1 =
      ((before ++ (head :: tail) :: after).map List.length).sum := by
  simp only [List.map_append, List.map_cons, List.sum_append, List.sum_cons, List.length_cons]
  omega

-- The name of the picked head's equation is read only by the termination proof.
set_option linter.unusedVariables false in
/-- The merge loop: while the best head is in range, take it and advance its stream. -/
def mergeLoop (inRange : α → Bool) (streams : List (List α)) : List α :=
  match picked : pickBest le none 0 streams with
  | none => []
  | some (i, head) =>
      if inRange head then head :: mergeLoop inRange (streams.modify i List.tail) else []
termination_by (streams.map List.length).sum
decreasing_by
  obtain ⟨before, tail, after, split, index⟩ := pickBest_split le picked
  rw [split, index, modify_middle]
  have := sum_lengths_advance before after head tail
  simp only [List.tail_cons] at this ⊢
  omega

/-- Taking the head of a stream leaves the other elements. -/
theorem flatten_advance_perm (before after : List (List α)) (head : α) (tail : List α) :
    (before ++ (head :: tail) :: after).flatten.Perm
      (head :: (before ++ tail :: after).flatten) := by
  simp only [List.flatten_append, List.flatten_cons, List.cons_append]
  exact List.perm_middle

section Preorder

variable {le} (total : Std.Total fun a b => le a b = true)
  (trans : IsTrans α fun a b => le a b = true)
include total trans

/-- Where the streams are sorted, the best head is `le` every element of them. -/
theorem pickBest_le_all {streams : List (List α)} {j : Nat} {head : α}
    (sorted : ∀ s ∈ streams, s.Pairwise fun a b => le a b = true)
    (picked : pickBest le none 0 streams = some (j, head)) :
    ∀ x ∈ streams.flatten, le head x = true := by
  intro x member
  obtain ⟨s, member', xMember⟩ := List.mem_flatten.mp member
  obtain ⟨-, belowHeads⟩ := pickBest_least total trans picked
  cases s with
  | nil => cases xMember
  | cons first rest =>
      have belowFirst := belowHeads _ member' first rfl
      rcases List.mem_cons.mp xMember with same | later
      · rw [same]
        exact belowFirst
      · exact trans.trans _ _ _ belowFirst (List.rel_of_pairwise_cons (sorted _ member') later)

/-- **The merge**: where the streams are sorted by a total preorder and the range is closed
downwards, the merge is sorted and holds the elements in range. -/
theorem mergeLoop_spec (inRange : α → Bool)
    (closed : ∀ a b, le a b = true → inRange b = true → inRange a = true)
    (streams : List (List α)) (sorted : ∀ s ∈ streams, s.Pairwise fun a b => le a b = true) :
    (mergeLoop le inRange streams).Pairwise (fun a b => le a b = true) ∧
      (mergeLoop le inRange streams).Perm (streams.flatten.filter inRange) := by
  fun_induction mergeLoop le inRange streams with
  | case1 streams picked =>
      -- No stream has a head left.
      obtain ⟨-, empty⟩ := pickBest_eq_none le picked
      rw [List.flatten_eq_nil_iff.mpr empty]
      exact ⟨List.Pairwise.nil, List.Perm.nil⟩
  | case2 streams j head picked inside ih =>
      obtain ⟨before, tail, after, split, index⟩ := pickBest_split le picked
      have least := pickBest_le_all total trans sorted picked
      have advanced : streams.modify j List.tail = before ++ tail :: after := by
        rw [split, index, modify_middle]
        rfl
      have sortedRest : ∀ s ∈ streams.modify j List.tail, s.Pairwise fun a b => le a b = true := by
        rw [advanced]
        intro s member
        rcases List.mem_append.mp member with early | late
        · exact sorted s (by rw [split]; exact List.mem_append_left _ early)
        · rcases List.mem_cons.mp late with here | later
          · rw [here]
            exact (sorted (head :: tail) (by rw [split]; simp)).of_cons
          · exact sorted s (by rw [split]; simp [later])
      obtain ⟨sortedMerged, permMerged⟩ := ih sortedRest
      have perm : streams.flatten.Perm (head :: (streams.modify j List.tail).flatten) := by
        rw [advanced, split]
        exact flatten_advance_perm before after head tail
      refine ⟨List.pairwise_cons.mpr ⟨fun x member => ?_, sortedMerged⟩, ?_⟩
      · -- What follows comes from the streams the head was least in.
        have fromRest := List.mem_of_mem_filter (permMerged.mem_iff.mp member)
        exact least x (perm.symm.mem_iff.mp (List.mem_cons_of_mem _ fromRest))
      · calc List.Perm _ (head :: (streams.modify j List.tail).flatten.filter inRange) :=
              permMerged.cons head
          _ = (head :: (streams.modify j List.tail).flatten).filter inRange := by
              rw [List.filter_cons_of_pos inside]
          List.Perm _ (streams.flatten.filter inRange) := (perm.filter inRange).symm
  | case3 streams j head picked outside =>
      -- The least head is out of range, so every element is.
      refine ⟨List.Pairwise.nil, ?_⟩
      rw [List.filter_eq_nil_iff.mpr fun x member inRangeX => ?_]
      exact outside (closed head x (pickBest_le_all total trans sorted picked x member) inRangeX)

end Preorder

end SortedMerge
