import Mathlib.Order.Lattice
import Mathlib.Order.RelClasses
import Mathlib.Data.List.Basic

/-!
# Joins that are lawful on coherent values

A replicated value that is merged by a binary join converges when the join is idempotent,
commutative and associative: the state after a set of updates does not depend on their
order or on duplicates.  Some joins have these laws only on values that agree where they
must.  A last-writer-wins register is commutative only on registers that never carry two
values under one stamp.  `JoinLaws join Coherent` states the laws for coherent arguments,
with the closure facts that keep coherence along a fold.

A pairwise coherent family generates values that are again pairwise coherent
(`coherent_of_generated`), and on them the join is a join-semilattice in Mathlib's sense
(`generatedSemilatticeSup`).  From there a fold is a least upper bound, and
`foldl_eq_of_same_members` follows: folds of two lists with the same members agree.
-/

namespace Semilattice

variable {α : Type*}

/-- The laws of `join` on `Coherent` arguments.  Coherence is reflexive and symmetric, and
a join of two values coherent with a third is coherent with it, so that the laws can be
applied along a fold. -/
structure JoinLaws (join : α → α → α) (Coherent : α → α → Prop) : Prop where
  coherent_refl : ∀ a, Coherent a a
  coherent_symm : ∀ {a b}, Coherent a b → Coherent b a
  coherent_join : ∀ {a b c}, Coherent a c → Coherent b c → Coherent (join a b) c
  join_self : ∀ a, join a a = a
  join_comm : ∀ {a b}, Coherent a b → join a b = join b a
  join_assoc : ∀ {a b c}, Coherent a b → Coherent b c → Coherent a c →
    join (join a b) c = join a (join b c)

/-- The values that joins of members of `family` reach. -/
inductive Generated (join : α → α → α) (family : α → Prop) : α → Prop
  | member {a : α} : family a → Generated join family a
  | join {a b : α} : Generated join family a → Generated join family b →
      Generated join family (join a b)

namespace JoinLaws

variable {join : α → α → α} {Coherent : α → α → Prop}

/-- The laws survive a finer coherence that the join keeps. -/
theorem mono {Finer : α → α → Prop} (laws : JoinLaws join Coherent)
    (coarser : ∀ {a b}, Finer a b → Coherent a b) (refl : ∀ a, Finer a a)
    (symm : ∀ {a b}, Finer a b → Finer b a)
    (closed : ∀ {a b c}, Finer a c → Finer b c → Finer (join a b) c) :
    JoinLaws join Finer where
  coherent_refl := refl
  coherent_symm := symm
  coherent_join := closed
  join_self := laws.join_self
  join_comm coherent := laws.join_comm (coarser coherent)
  join_assoc ab bc ac := laws.join_assoc (coarser ab) (coarser bc) (coarser ac)

section Generated

variable (laws : JoinLaws join Coherent) {family : α → Prop}
  (coherent : ∀ a b, family a → family b → Coherent a b)
include laws coherent

/-- A pairwise coherent family generates pairwise coherent values. -/
theorem coherent_of_generated {a b : α} (generatedA : Generated join family a)
    (generatedB : Generated join family b) : Coherent a b := by
  -- Induction on how `a` is generated; for a member, on how `b` is.
  induction generatedA with
  | member memberA =>
      induction generatedB with
      | member memberB => exact coherent _ _ memberA memberB
      | join _ _ left right =>
          exact laws.coherent_symm
            (laws.coherent_join (laws.coherent_symm left) (laws.coherent_symm right))
  | join _ _ left right => exact laws.coherent_join left right

/-- On the values a coherent family generates, the join is a join-semilattice. -/
@[reducible] def generatedSemilatticeSup : SemilatticeSup {a // Generated join family a} :=
  letI : Max {a // Generated join family a} := ⟨fun a b => ⟨join a.1 b.1, .join a.2 b.2⟩⟩
  SemilatticeSup.mk'
    (fun a b => Subtype.ext (laws.join_comm (laws.coherent_of_generated coherent a.2 b.2)))
    (fun a b c => Subtype.ext (laws.join_assoc (laws.coherent_of_generated coherent a.2 b.2)
      (laws.coherent_of_generated coherent b.2 c.2) (laws.coherent_of_generated coherent a.2 c.2)))
    (fun a => Subtype.ext (laws.join_self a.1))

end Generated

end JoinLaws

/-! ## Folds as least upper bounds -/

/-- A left fold of a join is below `s` exactly when its start and all its elements are. -/
theorem foldl_sup_le_iff {β : Type*} [SemilatticeSup β] (l : List β) (init s : β) :
    l.foldl (· ⊔ ·) init ≤ s ↔ init ≤ s ∧ ∀ x ∈ l, x ≤ s := by
  induction l generalizing init with
  | nil => simp
  | cons x rest ih => simp only [List.foldl_cons, ih, sup_le_iff, List.mem_cons,
      forall_eq_or_imp, and_assoc]

namespace JoinLaws

variable {join : α → α → α} {Coherent : α → α → Prop} (laws : JoinLaws join Coherent)
  {family : α → Prop} (coherent : ∀ a b, family a → family b → Coherent a b)
include laws coherent

/-- A fold of members, seen in the generated semilattice. -/
theorem foldl_lift (updates : List α) (members : ∀ x ∈ updates, family x)
    (init : {a // Generated join family a}) :
    letI := laws.generatedSemilatticeSup coherent
    ((updates.pmap (fun x member => (⟨x, .member member⟩ : {a // Generated join family a}))
      members).foldl (· ⊔ ·) init).1 = updates.foldl join init.1 := by
  induction updates generalizing init with
  | nil => rfl
  | cons x rest ih =>
      rw [List.pmap_cons, List.foldl_cons, List.foldl_cons, ih]
      rfl

/-- **Order and duplicates do not matter.**  Folding the join over two lists of members of
a pairwise coherent family, with the same members, from the same start gives the same
value. -/
theorem foldl_eq_of_same_members {init : α} (initMember : family init)
    {updates updates' : List α} (members : ∀ x ∈ updates, family x)
    (members' : ∀ x ∈ updates', family x) (sameMembers : ∀ x, x ∈ updates ↔ x ∈ updates') :
    updates.foldl join init = updates'.foldl join init := by
  let _ := laws.generatedSemilatticeSup coherent
  let start : {a // Generated join family a} := ⟨init, .member initMember⟩
  let lift := fun (l : List α) (h : ∀ x ∈ l, family x) =>
    l.pmap (fun x member => (⟨x, .member member⟩ : {a // Generated join family a})) h
  -- A fold is below any upper bound of the start and of every member of the other list.
  have below : ∀ (l l' : List α) (h : ∀ x ∈ l, family x) (h' : ∀ x ∈ l', family x),
      (∀ x, x ∈ l → x ∈ l') →
        (lift l h).foldl (· ⊔ ·) start ≤ (lift l' h').foldl (· ⊔ ·) start := by
    intro l l' h h' sub
    have top := (foldl_sup_le_iff (lift l' h') start _).mp le_rfl
    refine (foldl_sup_le_iff (lift l h) start _).mpr ⟨top.1, ?_⟩
    intro x member
    obtain ⟨y, yMember, rfl⟩ := List.mem_pmap.mp member
    exact top.2 _ (List.mem_pmap.mpr ⟨y, sub y yMember, rfl⟩)
  have same := le_antisymm (below updates updates' members members' (fun x => (sameMembers x).mp))
    (below updates' updates members' members (fun x => (sameMembers x).mpr))
  rw [← laws.foldl_lift coherent updates members start,
    ← laws.foldl_lift coherent updates' members' start]
  exact congrArg Subtype.val same

end JoinLaws

/-! ## Optional values, `none` the unit -/

section Option

variable {join : α → α → α} {Coherent : α → α → Prop}

/-- Join two optional values; a missing value is the unit. -/
def optionJoin (join : α → α → α) : Option α → Option α → Option α
  | none, y => y
  | some x, none => some x
  | some x, some y => some (join x y)

/-- Two optional values are coherent when their values are, where both are present. -/
def OptionCoherent (Coherent : α → α → Prop) (a b : Option α) : Prop :=
  ∀ x y, a = some x → b = some y → Coherent x y

@[simp] theorem optionJoin_none_left (b : Option α) : optionJoin join none b = b := rfl

@[simp] theorem optionJoin_none_right (a : Option α) : optionJoin join a none = a := by
  cases a <;> rfl

@[simp] theorem optionJoin_some_some (x y : α) :
    optionJoin join (some x) (some y) = some (join x y) := rfl

@[simp] theorem optionCoherent_some_some {x y : α} :
    OptionCoherent Coherent (some x) (some y) ↔ Coherent x y := by
  simp [OptionCoherent]

@[simp] theorem optionCoherent_none_left (b : Option α) : OptionCoherent Coherent none b := by
  simp [OptionCoherent]

@[simp] theorem optionCoherent_none_right (a : Option α) : OptionCoherent Coherent a none := by
  simp [OptionCoherent]

/-- The laws lift to optional values. -/
theorem JoinLaws.option (laws : JoinLaws join Coherent) :
    JoinLaws (optionJoin join) (OptionCoherent Coherent) where
  coherent_refl a := by
    cases a with
    | none => simp
    | some x => simpa using laws.coherent_refl x
  coherent_symm {a b} coherent := by
    cases a <;> cases b <;> simp_all [laws.coherent_symm]
  coherent_join {a b c} ac bc := by
    cases a <;> cases b <;> cases c <;> simp_all [laws.coherent_join]
  join_self a := by
    cases a <;> simp [laws.join_self]
  join_comm {a b} coherent := by
    cases a with
    | none => simp
    | some x =>
        cases b with
        | none => simp
        | some y =>
            simp only [optionJoin_some_some, optionCoherent_some_some] at coherent ⊢
            rw [laws.join_comm coherent]
  join_assoc {a b c} ab bc ac := by
    cases a with
    | none => simp
    | some x =>
        cases b with
        | none => simp
        | some y =>
            cases c with
            | none => simp
            | some z =>
                simp only [optionJoin_some_some, optionCoherent_some_some] at ab bc ac ⊢
                rw [laws.join_assoc ab bc ac]

end Option

/-! ## Last writer wins -/

section LastWriterWins

variable {older : α → α → Prop}

/-- Keep `a` unless `b` is newer. -/
def lastWriterWins (older : α → α → Prop) [DecidableRel older] (a b : α) : α :=
  if older a b then b else a

/-- Two values are tie-coherent when being tied in age makes them equal. -/
def TieCoherent (older : α → α → Prop) (a b : α) : Prop := ¬older a b → ¬older b a → a = b

theorem TieCoherent.swap {a b : α} (coherent : TieCoherent older a b) : TieCoherent older b a :=
  fun ba ab => (coherent ab ba).symm

/-- `x` is no older than any value of `values`. -/
def Newest (older : α → α → Prop) (values : List α) (x : α) : Prop := ∀ z ∈ values, ¬older x z

theorem Newest.mono {values values' : List α} {x : α} (newest : Newest older values x)
    (sub : ∀ z ∈ values', z ∈ values) : Newest older values' x :=
  fun z member => newest z (sub z member)

/-- Two newest values of a pairwise tie-coherent list are equal. -/
theorem eq_of_newest {values : List α} {x y : α}
    (coherent : ∀ a ∈ values, ∀ b ∈ values, TieCoherent older a b) (memberX : x ∈ values)
    (memberY : y ∈ values) (newestX : Newest older values x) (newestY : Newest older values y) :
    x = y :=
  coherent x memberX y memberY (newestX y memberY) (newestY x memberX)

variable [DecidableRel older]

variable (older) in
theorem lastWriterWins_eq_or (a b : α) :
    lastWriterWins older a b = a ∨ lastWriterWins older a b = b := by
  unfold lastWriterWins
  split
  · exact Or.inr rfl
  · exact Or.inl rfl

theorem lastWriterWins_mem {values : List α} {a b : α} (memberA : a ∈ values)
    (memberB : b ∈ values) : lastWriterWins older a b ∈ values := by
  rcases lastWriterWins_eq_or older a b with kept | kept <;> rw [kept]
  · exact memberA
  · exact memberB

variable [IsStrictWeakOrder α older]

omit [DecidableRel older] in
theorem newest_singleton (a : α) : Newest older [a] a := by
  simpa [Newest] using irrefl a

variable (older) in
/-- The kept value is no older than either argument. -/
theorem not_older_lastWriterWins (a b : α) :
    ¬older (lastWriterWins older a b) a ∧ ¬older (lastWriterWins older a b) b := by
  unfold lastWriterWins
  split
  · rename_i newer
    exact ⟨asymm newer, irrefl b⟩
  · rename_i notNewer
    exact ⟨irrefl a, notNewer⟩

omit [DecidableRel older] in
/-- Being no older is transitive: ties of a strict weak order are transitive. -/
theorem not_older_trans {a b c : α} (ab : ¬older a b) (bc : ¬older b c) : ¬older a c := by
  intro ac
  have ba : ¬older b a := fun ba => bc (IsTrans.trans _ _ _ ba ac)
  have cb : ¬older c b := fun cb => ab (IsTrans.trans _ _ _ ac cb)
  exact (IsStrictWeakOrder.incomp_trans a b c ⟨ab, ba⟩ ⟨bc, cb⟩).1 ac

/-- The kept value of two newest values is newest over both lists. -/
theorem newest_lastWriterWins {values values' : List α} {a b : α}
    (newestA : Newest older values a) (newestB : Newest older values' b) :
    Newest older (values ++ values') (lastWriterWins older a b) := by
  obtain ⟨keptA, keptB⟩ := not_older_lastWriterWins older a b
  intro z member
  rcases List.mem_append.mp member with inLeft | inRight
  · exact not_older_trans keptA (newestA z inLeft)
  · exact not_older_trans keptB (newestB z inRight)

/-- **Last writer wins is lawful** on tie-coherent values of a strict weak order. -/
theorem lastWriterWins_laws : JoinLaws (lastWriterWins older) (TieCoherent older) where
  coherent_refl _ _ _ := rfl
  coherent_symm coherent := coherent.swap
  coherent_join {a b c} ac bc := by
    rcases lastWriterWins_eq_or older a b with kept | kept <;> rw [kept]
    · exact ac
    · exact bc
  join_self a := by simp [lastWriterWins, irrefl a]
  join_comm {a b} coherent := by
    -- Both results are among `a, b` and newest over them.
    have pairwise : ∀ x ∈ [a, b], ∀ y ∈ [a, b], TieCoherent older x y := by
      simp only [List.mem_cons, List.not_mem_nil, or_false]
      rintro x (rfl | rfl) y (rfl | rfl)
      all_goals first | exact fun _ _ => rfl | exact coherent | exact coherent.swap
    apply eq_of_newest pairwise (lastWriterWins_mem (by simp) (by simp))
      (lastWriterWins_mem (by simp) (by simp))
    · exact newest_lastWriterWins (newest_singleton a) (newest_singleton b)
    · exact (newest_lastWriterWins (newest_singleton b) (newest_singleton a)).mono (by simp)
  join_assoc {a b c} ab bc ac := by
    -- Both sides are among `a, b, c` and newest over them.
    have pairwise : ∀ x ∈ [a, b, c], ∀ y ∈ [a, b, c], TieCoherent older x y := by
      simp only [List.mem_cons, List.not_mem_nil, or_false]
      rintro x (rfl | rfl | rfl) y (rfl | rfl | rfl)
      all_goals first
        | exact fun _ _ => rfl
        | exact ab | exact bc | exact ac | exact ab.swap | exact bc.swap | exact ac.swap
    apply eq_of_newest pairwise
      (lastWriterWins_mem (lastWriterWins_mem (by simp) (by simp)) (by simp))
      (lastWriterWins_mem (by simp) (lastWriterWins_mem (by simp) (by simp)))
    · exact (newest_lastWriterWins (newest_lastWriterWins (newest_singleton a)
        (newest_singleton b)) (newest_singleton c)).mono (by simp)
    · exact (newest_lastWriterWins (newest_singleton a)
        (newest_lastWriterWins (newest_singleton b) (newest_singleton c))).mono (by simp)

end LastWriterWins

end Semilattice
