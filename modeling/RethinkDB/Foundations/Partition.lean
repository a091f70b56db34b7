import Mathlib

/-!
# Partitions by lists of pieces

A list of pieces, each standing for a set of points, partitions a set `X` when no two
pieces share a point and a point lies in some piece exactly when it lies in `X`.

Subtracting a region piece by piece is refining a partition: when every piece `a` of a
partition of `X` is replaced by pieces that partition `a \ S`, the result partitions
`X \ S` (`IsPartition.refine_cons`).  A list of pieces given as sets of points keeps the
development independent of what the points are.
-/

namespace Partition

variable {ι P : Type*} {points : ι → Set P}

variable (points) in
/-- `pieces` partitions `X`. -/
structure IsPartition (pieces : List ι) (X : Set P) : Prop where
  pairwise_disjoint : pieces.Pairwise fun a b => Disjoint (points a) (points b)
  covers : ∀ p, (∃ a ∈ pieces, p ∈ points a) ↔ p ∈ X

theorem isPartition_nil {X : Set P} : IsPartition points [] X ↔ X = ∅ := by
  constructor
  · intro partition
    ext p
    simpa using (partition.covers p).symm
  · rintro rfl
    exact ⟨List.Pairwise.nil, fun p => by simp⟩

theorem isPartition_singleton (a : ι) : IsPartition points [a] (points a) :=
  ⟨List.pairwise_singleton _ _, fun p => by simp⟩

theorem IsPartition.subset {pieces : List ι} {X : Set P} (partition : IsPartition points pieces X)
    {a : ι} (member : a ∈ pieces) : points a ⊆ X :=
  fun _ inside => (partition.covers _).mp ⟨a, member, inside⟩

/-- A piece kept only under a condition partitions its set when the set is empty without it. -/
theorem isPartition_ite {c : Prop} [Decidable c] {pieces : List ι} {X : Set P}
    (partition : IsPartition points pieces X) (empty : ¬c → X = ∅) :
    IsPartition points (if c then pieces else []) X := by
  by_cases holds : c
  · simpa [holds] using partition
  · simpa [holds] using isPartition_nil.mpr (empty holds)

/-- Renamed pieces partition what the original pieces partition through the renaming. -/
theorem isPartition_map {κ : Type*} (f : κ → ι) {pieces : List κ} {X : Set P} :
    IsPartition points (pieces.map f) X ↔ IsPartition (fun a => points (f a)) pieces X := by
  constructor
  · rintro ⟨pairwise, covers⟩
    rw [List.pairwise_map] at pairwise
    exact ⟨pairwise, fun p => by simpa using covers p⟩
  · rintro ⟨pairwise, covers⟩
    refine ⟨List.pairwise_map.mpr pairwise, fun p => ?_⟩
    simpa using covers p

/-- A partition of `X` partitions `B ×ˢ X`, every piece taken with all of `B`. -/
theorem IsPartition.prod {Q : Type*} (B : Set Q) {pieces : List ι} {X : Set P}
    (partition : IsPartition points pieces X) :
    IsPartition (fun a => B ×ˢ points a) pieces (B ×ˢ X) := by
  refine ⟨partition.pairwise_disjoint.imp fun disjoint => ?_, fun p => ?_⟩
  · exact Set.disjoint_prod.mpr (Or.inr disjoint)
  · simp only [Set.mem_prod, ← partition.covers p.2]
    constructor
    · rintro ⟨a, member, inB, inA⟩
      exact ⟨inB, a, member, inA⟩
    · rintro ⟨inB, a, member, inA⟩
      exact ⟨a, member, inB, inA⟩

/-- Two partitions of disjoint sets make a partition of their union. -/
theorem IsPartition.append {pieces pieces' : List ι} {X Y : Set P}
    (left : IsPartition points pieces X) (right : IsPartition points pieces' Y)
    (disjoint : Disjoint X Y) : IsPartition points (pieces ++ pieces') (X ∪ Y) := by
  constructor
  · refine List.pairwise_append.mpr ⟨left.pairwise_disjoint, right.pairwise_disjoint, ?_⟩
    intro a memberA b memberB
    exact disjoint.mono (left.subset memberA) (right.subset memberB)
  · intro p
    rw [Set.mem_union, ← left.covers, ← right.covers]
    simp only [List.mem_append]
    constructor
    · rintro ⟨a, member | member, inside⟩
      · exact Or.inl ⟨a, member, inside⟩
      · exact Or.inr ⟨a, member, inside⟩
    · rintro (⟨a, member, inside⟩ | ⟨a, member, inside⟩)
      · exact ⟨a, Or.inl member, inside⟩
      · exact ⟨a, Or.inr member, inside⟩

/-- Without its first piece, a partition of `X` partitions the rest of `X`. -/
theorem IsPartition.tail {a : ι} {rest : List ι} {X : Set P}
    (partition : IsPartition points (a :: rest) X) : IsPartition points rest (X \ points a) := by
  obtain ⟨pairwise, covers⟩ := partition
  rw [List.pairwise_cons] at pairwise
  refine ⟨pairwise.2, fun p => ?_⟩
  constructor
  · rintro ⟨b, member, inside⟩
    refine ⟨(covers p).mp ⟨b, List.mem_cons_of_mem a member, inside⟩, fun first => ?_⟩
    exact Set.disjoint_left.mp (pairwise.1 b member) first inside
  · rintro ⟨inX, notFirst⟩
    obtain ⟨b, member, inside⟩ := (covers p).mpr inX
    rcases List.mem_cons.mp member with rfl | member
    · exact absurd inside notFirst
    · exact ⟨b, member, inside⟩

/-- **Refining the first piece.**  Pieces that partition `a \ S`, followed by pieces that
partition the rest of `X` minus `S`, partition `X \ S`. -/
theorem IsPartition.refine_cons {a : ι} {X S : Set P} {cut rest : List ι}
    (inside : points a ⊆ X) (first : IsPartition points cut (points a \ S))
    (others : IsPartition points rest ((X \ points a) \ S)) :
    IsPartition points (cut ++ rest) (X \ S) := by
  have whole : points a \ S ∪ (X \ points a) \ S = X \ S := by
    ext p
    constructor
    · rintro (⟨inA, notS⟩ | ⟨⟨inX, _⟩, notS⟩)
      · exact ⟨inside inA, notS⟩
      · exact ⟨inX, notS⟩
    · rintro ⟨inX, notS⟩
      by_cases inA : p ∈ points a
      · exact Or.inl ⟨inA, notS⟩
      · exact Or.inr ⟨⟨inX, inA⟩, notS⟩
  have disjoint : Disjoint (points a \ S) ((X \ points a) \ S) :=
    Set.disjoint_left.mpr fun _ left right => right.1.2 left.1
  exact whole ▸ first.append others disjoint

end Partition
