import Mathlib.Data.List.Basic
import Mathlib.Data.Int.Basic
import Mathlib.Tactic.Common

/-!
# Byte strings under lexicographic order

Byte strings are lists of unsigned bytes.  Their order is the core lexicographic `<` on
lists: the first differing byte decides, and a proper prefix comes first.  C code
compares them in two steps, `memcmp` over the common length and then the lengths; the
results here say that the sign of such a comparison is the three-way `lexSign`.

The remaining lemmas are the facts about this order that key encodings use: how it
interacts with concatenation, with prefixes and with truncation to a fixed length.
-/

namespace Bytes

/-- `memcmp` over the first `n` bytes: the difference of the first pair of bytes that
differ, read as unsigned bytes, or `0` when the first `n` bytes agree. -/
def memcmp : List UInt8 → List UInt8 → Nat → Int
  | a :: rest, b :: rest', n + 1 =>
      if a = b then memcmp rest rest' n else (a.toNat : Int) - b.toNat
  | _, _, _ => 0

/-- The three-way lexicographic comparison, as `-1`, `0` or `1`. -/
def lexSign (a b : List UInt8) : Int := if a < b then -1 else if a = b then 0 else 1

/-! ## The three-way sign -/

/-- Byte strings are totally ordered. -/
theorem lt_trichotomy (a b : List UInt8) : a < b ∨ a = b ∨ b < a := by
  rcases List.le_total a b with le | le
  · rcases List.le_iff_lt_or_eq.mp le with lt | same
    · exact Or.inl lt
    · exact Or.inr (Or.inl same)
  · rcases List.le_iff_lt_or_eq.mp le with lt | same
    · exact Or.inr (Or.inr lt)
    · exact Or.inr (Or.inl same.symm)

theorem ne_of_lt {a b : List UInt8} (lt : a < b) : a ≠ b :=
  fun same => List.lt_irrefl a (same ▸ lt)

@[simp] theorem lexSign_nil_nil : lexSign [] [] = 0 := by decide

@[simp] theorem lexSign_nil_cons (b : UInt8) (rest : List UInt8) :
    lexSign [] (b :: rest) = -1 := by
  simp [lexSign]

@[simp] theorem lexSign_cons_nil (a : UInt8) (rest : List UInt8) :
    lexSign (a :: rest) [] = 1 := by
  simp [lexSign]

theorem lexSign_nil_of_ne_nil {b : List UInt8} (nonempty : b ≠ []) : lexSign [] b = -1 := by
  obtain ⟨y, rest, rfl⟩ := List.exists_cons_of_ne_nil nonempty
  exact lexSign_nil_cons y rest

theorem lexSign_of_ne_nil_nil {a : List UInt8} (nonempty : a ≠ []) : lexSign a [] = 1 := by
  obtain ⟨x, rest, rfl⟩ := List.exists_cons_of_ne_nil nonempty
  exact lexSign_cons_nil x rest

theorem lexSign_cons_cons (a b : UInt8) (rest rest' : List UInt8) :
    lexSign (a :: rest) (b :: rest') =
      if a = b then lexSign rest rest' else if a < b then -1 else 1 := by
  unfold lexSign
  by_cases same : a = b
  · subst same
    simp
  · have differ : ¬(a :: rest = b :: rest') := fun equal => same (List.cons.inj equal).1
    simp only [List.cons_lt_cons_iff, same, false_and, or_false, if_false, differ]

theorem lexSign_eq_neg_one_iff {a b : List UInt8} : lexSign a b = -1 ↔ a < b := by
  unfold lexSign
  split_ifs <;> simp_all

theorem lexSign_eq_zero_iff {a b : List UInt8} : lexSign a b = 0 ↔ a = b := by
  unfold lexSign
  split_ifs with lt same
  · simp [ne_of_lt lt]
  · simp [same]
  · simp [same]

theorem lexSign_eq_one_iff {a b : List UInt8} : lexSign a b = 1 ↔ b < a := by
  unfold lexSign
  rcases lt_trichotomy a b with lt | same | gt
  · simp [lt, List.lt_asymm lt]
  · subst same
    simp [List.lt_irrefl]
  · have notLt : ¬a < b := List.lt_asymm gt
    have differ : a ≠ b := fun same => List.lt_irrefl a (same ▸ gt)
    simp [notLt, differ, gt]

/-- Swapping the strings negates the sign. -/
theorem lexSign_swap (a b : List UInt8) : lexSign b a = -lexSign a b := by
  rcases lt_trichotomy a b with lt | same | gt
  · rw [lexSign_eq_neg_one_iff.mpr lt, lexSign_eq_one_iff.mpr lt]
    rfl
  · subst same
    rw [lexSign_eq_zero_iff.mpr rfl]
    rfl
  · rw [lexSign_eq_one_iff.mpr gt, lexSign_eq_neg_one_iff.mpr gt]

/-! ## `memcmp` and then the lengths -/

/-- Agreement over the common length leaves the lengths to decide. -/
theorem memcmp_sign_or_prefix (a b : List UInt8) :
    (memcmp a b (min a.length b.length)).sign = lexSign a b ∨
      (memcmp a b (min a.length b.length) = 0 ∧ (a <+: b ∨ b <+: a)) := by
  induction a generalizing b with
  | nil => exact Or.inr ⟨by simp [memcmp], Or.inl (List.nil_prefix)⟩
  | cons x rest ih =>
      cases b with
      | nil => exact Or.inr ⟨by simp [memcmp], Or.inr (List.nil_prefix)⟩
      | cons y rest' =>
          simp only [List.length_cons, Nat.succ_min_succ, memcmp, lexSign_cons_cons]
          by_cases same : x = y
          · subst same
            simp only [if_true, List.prefix_cons_inj]
            exact ih rest'
          · left
            simp only [same, if_false]
            have toNatNe : x.toNat ≠ y.toNat := fun equal => same (UInt8.toNat_inj.mp equal)
            by_cases lt : x < y
            · have : x.toNat < y.toNat := UInt8.lt_iff_toNat_lt.mp lt
              simp only [lt, if_true]
              exact Int.sign_eq_neg_one_of_neg (by omega)
            · have : y.toNat < x.toNat := by
                have := mt UInt8.lt_iff_toNat_lt.mpr lt
                omega
              simp only [lt, if_false]
              exact Int.sign_eq_one_of_pos (by omega)

/-- A prefix decides by length. -/
theorem lexSign_of_isPrefix {a b : List UInt8} (isPrefix : a <+: b) :
    lexSign a b = if a.length < b.length then -1 else 0 := by
  obtain ⟨tail, rfl⟩ := isPrefix
  cases tail with
  | nil => simp [lexSign, List.lt_irrefl]
  | cons t rest =>
      have lt : a < a ++ t :: rest := by
        simpa using (List.append_left_lt (List.nil_lt_cons t rest) : a ++ [] < a ++ t :: rest)
      simp [lexSign, lt]

/-- The sign of "`memcmp` over the common length, then the lengths" is `lexSign`, for any
way of turning the length comparison into a number with the right sign. -/
theorem sign_memcmp_then_length (a b : List UInt8) (byLength : Int)
    (lengthSign : byLength.sign = if a.length < b.length then -1
      else if a.length = b.length then 0 else 1) :
    (let content := memcmp a b (min a.length b.length)
     if content = 0 then byLength else content).sign = lexSign a b := by
  rcases memcmp_sign_or_prefix a b with decided | ⟨zero, isPrefix⟩
  · simp only
    split
    · -- A zero `memcmp` with a decided sign means equal strings, hence equal lengths.
      rename_i zero
      rw [zero, Int.sign_zero, eq_comm, lexSign_eq_zero_iff] at decided
      subst decided
      simp [lengthSign, lexSign, List.lt_irrefl]
    · exact decided
  · simp only [zero, if_true, lengthSign]
    rcases isPrefix with isPrefix | isPrefix
    · rw [lexSign_of_isPrefix isPrefix]
      have := isPrefix.length_le
      split_ifs <;> first | rfl | omega
    · rw [lexSign_swap, lexSign_of_isPrefix isPrefix]
      have := isPrefix.length_le
      split_ifs <;> first | rfl | omega

/-! ## Common prefixes and divergence -/

theorem lexSign_append_left (common a b : List UInt8) :
    lexSign (common ++ a) (common ++ b) = lexSign a b := by
  induction common with
  | nil => rfl
  | cons x rest ih => simpa [lexSign_cons_cons] using ih

/-- The two strings differ at a position inside both, so neither is a prefix of the
other and what follows either one cannot change their order. -/
def Diverge (a b : List UInt8) : Prop :=
  ∃ common x y rest rest', x ≠ y ∧ a = common ++ x :: rest ∧ b = common ++ y :: rest'

namespace Diverge

variable {a b : List UInt8}

theorem symm (diverge : Diverge a b) : Diverge b a := by
  obtain ⟨common, x, y, rest, rest', differ, rfl, rfl⟩ := diverge
  exact ⟨common, y, x, rest', rest, Ne.symm differ, rfl, rfl⟩

theorem append_left (diverge : Diverge a b) (common : List UInt8) :
    Diverge (common ++ a) (common ++ b) := by
  obtain ⟨shared, x, y, rest, rest', differ, rfl, rfl⟩ := diverge
  exact ⟨common ++ shared, x, y, rest, rest', differ, by simp, by simp⟩

theorem append_right (diverge : Diverge a b) (tail tail' : List UInt8) :
    Diverge (a ++ tail) (b ++ tail') := by
  obtain ⟨shared, x, y, rest, rest', differ, rfl, rfl⟩ := diverge
  exact ⟨shared, x, y, rest ++ tail, rest' ++ tail', differ, by simp, by simp⟩

theorem ne (diverge : Diverge a b) : a ≠ b := by
  obtain ⟨shared, x, y, rest, rest', differ, rfl, rfl⟩ := diverge
  intro same
  exact differ (List.cons.inj (List.append_cancel_left same)).1

theorem not_isPrefix (diverge : Diverge a b) : ¬a <+: b := by
  obtain ⟨shared, x, y, rest, rest', differ, rfl, rfl⟩ := diverge
  rintro ⟨tail, same⟩
  simp only [List.append_assoc, List.cons_append, List.append_cancel_left_eq,
    List.cons.injEq] at same
  exact differ same.1

/-- What follows two diverging strings does not change their order. -/
theorem lexSign_append (diverge : Diverge a b) (tail tail' : List UInt8) :
    lexSign (a ++ tail) (b ++ tail') = lexSign a b := by
  obtain ⟨shared, x, y, rest, rest', differ, rfl, rfl⟩ := diverge
  simp only [List.append_assoc, List.cons_append, lexSign_append_left, lexSign_cons_cons,
    differ, if_false]

end Diverge

/-- Strings of one length are equal or diverge. -/
theorem diverge_of_length_eq {a b : List UInt8} (sameLength : a.length = b.length)
    (differ : a ≠ b) : Diverge a b := by
  induction a generalizing b with
  | nil => exact absurd (List.length_eq_zero_iff.mp sameLength.symm).symm differ
  | cons x rest ih =>
      cases b with
      | nil => simp at sameLength
      | cons y rest' =>
          by_cases same : x = y
          · subst same
            have tails : rest ≠ rest' := fun equal => differ (equal ▸ rfl)
            simpa using (ih (by simpa using sameLength) tails).append_left [x]
          · exact ⟨[], x, y, rest, rest', same, rfl, rfl⟩

/-- Strings of which neither is a prefix of the other diverge. -/
theorem diverge_of_not_isPrefix {a b : List UInt8} (notPrefix : ¬a <+: b) (notPrefix' : ¬b <+: a) :
    Diverge a b := by
  induction a generalizing b with
  | nil => exact absurd List.nil_prefix notPrefix
  | cons x rest ih =>
      cases b with
      | nil => exact absurd List.nil_prefix notPrefix'
      | cons y rest' =>
          by_cases same : x = y
          · subst same
            have tails := ih (fun tail => notPrefix (List.cons_prefix_cons.mpr ⟨rfl, tail⟩))
              (fun tail => notPrefix' (List.cons_prefix_cons.mpr ⟨rfl, tail⟩))
            simpa using tails.append_left [x]
          · exact ⟨[], x, y, rest, rest', same, rfl, rfl⟩

/-- Between strings of one length the first differing byte decides, and only an equal
first part leaves the order to what follows. -/
theorem lexSign_append_of_length_eq {a b : List UInt8} (sameLength : a.length = b.length)
    (tail tail' : List UInt8) :
    lexSign (a ++ tail) (b ++ tail') = if a = b then lexSign tail tail' else lexSign a b := by
  split_ifs with same
  · subst same
    exact lexSign_append_left a tail tail'
  · exact (diverge_of_length_eq sameLength same).lexSign_append tail tail'

/-! ## Truncation -/

/-- Cutting a string to more bytes than the other one has keeps their order. -/
theorem lexSign_take_of_length_lt {a b : List UInt8} {n : Nat} (short : b.length < n) :
    lexSign (a.take n) b = lexSign a b := by
  induction b generalizing a n with
  | nil =>
      cases a with
      | nil => simp
      | cons x rest =>
          obtain ⟨m, rfl⟩ : ∃ m, n = m + 1 := ⟨n - 1, by simp at short; omega⟩
          simp
  | cons y rest' ih =>
      obtain ⟨m, rfl⟩ : ∃ m, n = m + 1 := ⟨n - 1, by simp at short; omega⟩
      cases a with
      | nil => simp
      | cons x rest =>
          simp only [List.take_succ_cons, lexSign_cons_cons]
          rw [ih (by simp at short; omega)]

theorem take_eq_of_take_eq {a b : List UInt8} {n : Nat} (same : a.take n = b.take n) {m : Nat}
    (shorter : m ≤ n) : a.take m = b.take m := by
  rw [← Nat.min_eq_left shorter, ← List.take_take, ← List.take_take, same]

/-- Strings that agree on their first `n` bytes still agree on their first `m ≤ n` once
the same bytes follow both. -/
theorem take_append_eq_of_take_eq {a b : List UInt8} {n : Nat} (same : a.take n = b.take n)
    {m : Nat} (shorter : m ≤ n) (t : List UInt8) : (a ++ t).take m = (b ++ t).take m := by
  have sameLength := congrArg List.length same
  simp only [List.length_take] at sameLength
  by_cases long : n ≤ a.length
  · -- Both strings reach the cut, so what follows them is cut away.
    rw [List.take_append_of_le_length (by omega), List.take_append_of_le_length (by omega)]
    exact take_eq_of_take_eq same shorter
  · -- A string shorter than the cut is its own cut, so the two are equal.
    have whole : a.take n = a := List.take_of_length_le (by omega)
    have whole' : b.take n = b := List.take_of_length_le (by omega)
    have equal : b = a := by rw [← whole', ← same, whole]
    rw [equal]

/-- Cutting both strings at one length keeps their order. -/
theorem take_le_take : ∀ {a b : List UInt8} (n : Nat), a ≤ b → a.take n ≤ b.take n
  | _, _, 0, _ => List.le_refl _
  | [], _, _ + 1, _ => List.nil_le _
  | x :: rest, [], _ + 1, le => absurd (List.nil_lt_cons x rest) le
  | x :: rest, y :: rest', n + 1, le => by
      rw [List.take_succ_cons, List.take_succ_cons, List.cons_le_cons_iff]
      rcases List.cons_le_cons_iff.mp le with lt | ⟨same, tails⟩
      · exact Or.inl lt
      · exact Or.inr ⟨same, take_le_take n tails⟩

/-- A cut of a lower string stays below a longer cut of a greater one, whatever follows
that cut. -/
theorem take_le_take_append {a b : List UInt8} (le : a ≤ b) {m n : Nat} (shorter : m ≤ n)
    (rest : List UInt8) : a.take m ≤ b.take n ++ rest :=
  List.le_trans (take_le_take m le)
    ((List.take_prefix_take_left shorter).trans (List.prefix_append _ _)).le

/-- Cutting after the divergence keeps the diverging bytes. -/
theorem take_append_cons_of_lt {common tail : List UInt8} {x : UInt8} {n : Nat}
    (inside : common.length < n) :
    (common ++ x :: tail).take n = common ++ x :: tail.take (n - common.length - 1) := by
  obtain ⟨k, split⟩ : ∃ k, n - common.length = k + 1 := ⟨n - common.length - 1, by omega⟩
  rw [List.take_append, List.take_of_length_le (by omega), split, List.take_succ_cons]
  rfl

/-- Below a string it diverges from, a string cut at any length stays below each shorter
cut of the other, unless that cut is a prefix of it. -/
theorem take_append_lt_or_prefix {a b : List UInt8} (diverge : Diverge a b) (lt : a < b)
    {m n : Nat} (shorter : m ≤ n) (rest : List UInt8) :
    a.take n ++ rest < b.take m ∨ b.take m <+: a.take n ++ rest := by
  obtain ⟨common, x, y, tail, tail', differ, rfl, rfl⟩ := diverge
  by_cases inside : common.length < m
  · -- The divergence survives both cuts.
    left
    rw [← lexSign_eq_neg_one_iff, lexSign_append_left, lexSign_cons_cons, if_neg differ] at lt
    have below : x < y := by
      by_contra notBelow
      rw [if_neg notBelow] at lt
      cases lt
    rw [take_append_cons_of_lt inside, take_append_cons_of_lt (by omega), ← lexSign_eq_neg_one_iff,
      List.append_assoc, List.cons_append, lexSign_append_left, lexSign_cons_cons, if_neg differ,
      if_pos below]
  · -- The shorter cut ends inside the common part.
    right
    have sameCut : (common ++ y :: tail').take m = (common ++ x :: tail).take m := by
      rw [List.take_append_of_le_length (by omega), List.take_append_of_le_length (by omega)]
    rw [sameCut]
    exact (List.take_prefix_take_left shorter).trans (List.prefix_append _ _)

/-! ## A terminating zero byte

Appending the least byte keeps the order; between strings without a zero byte it also
turns any difference into a divergence.  Array keys rely on both. -/

theorem lexSign_append_zero (a b : List UInt8) : lexSign (a ++ [0]) (b ++ [0]) = lexSign a b := by
  induction a generalizing b with
  | nil =>
      cases b with
      | nil => rfl
      | cons y rest =>
          -- `[0]` is below `y :: rest ++ [0]`: by its first byte or, at `y = 0`, as a prefix.
          rw [lexSign_nil_cons, List.nil_append, List.cons_append, lexSign_cons_cons]
          by_cases zero : (0 : UInt8) = y
          · simp only [zero, if_true]
            exact lexSign_nil_of_ne_nil (by simp)
          · have : (0 : UInt8) < y := by
              rw [UInt8.lt_iff_toNat_lt]
              have : (0 : UInt8).toNat ≠ y.toNat := fun equal => zero (UInt8.toNat_inj.mp equal)
              simp at this ⊢
              omega
            simp [zero, this]
  | cons x rest ih =>
      cases b with
      | nil =>
          rw [lexSign_cons_nil, List.nil_append, List.cons_append, lexSign_cons_cons]
          by_cases zero : x = 0
          · simp only [zero, if_true]
            exact lexSign_of_ne_nil_nil (by simp)
          · have : ¬x < 0 := by simp [UInt8.lt_iff_toNat_lt]
            simp [zero, this]
      | cons y rest' =>
          simp only [List.cons_append, lexSign_cons_cons, ih]

theorem diverge_append_zero {a b : List UInt8} (noZero : (0 : UInt8) ∉ a)
    (noZero' : (0 : UInt8) ∉ b) (differ : a ≠ b) : Diverge (a ++ [0]) (b ++ [0]) := by
  induction a generalizing b with
  | nil =>
      cases b with
      | nil => exact absurd rfl differ
      | cons y rest =>
          have : (0 : UInt8) ≠ y := fun zero => noZero' (zero ▸ List.mem_cons_self)
          exact ⟨[], 0, y, [], rest ++ [0], this, rfl, rfl⟩
  | cons x rest ih =>
      cases b with
      | nil =>
          have : x ≠ 0 := fun zero => noZero (zero ▸ List.mem_cons_self)
          exact ⟨[], x, 0, rest ++ [0], [], this, rfl, rfl⟩
      | cons y rest' =>
          by_cases same : x = y
          · subst same
            have tails : rest ≠ rest' := fun equal => differ (equal ▸ rfl)
            simpa using (ih (fun mem => noZero (List.mem_cons_of_mem x mem))
              (fun mem => noZero' (List.mem_cons_of_mem x mem)) tails).append_left [x]
          · exact ⟨[], x, y, rest ++ [0], rest' ++ [0], same, rfl, rfl⟩

/-- A string below another that does not continue it with a zero byte diverges from it
once the zero byte is appended. -/
theorem diverge_append_zero_of_lt {a b : List UInt8} (lt : a < b) (notNext : ¬a ++ [0] <+: b) :
    Diverge (a ++ [0]) b ∧ a ++ [0] < b := by
  by_cases continues : a <+: b
  · -- `b` continues `a` with a byte that is not zero.
    obtain ⟨tail, rfl⟩ := continues
    cases tail with
    | nil => exact absurd (by simpa using lt) (List.lt_irrefl a)
    | cons next rest =>
        have nonzero : (0 : UInt8) ≠ next := by
          rintro rfl
          exact notNext (by simp)
        refine ⟨⟨a, 0, next, [], rest, nonzero, rfl, rfl⟩, ?_⟩
        rw [← lexSign_eq_neg_one_iff, lexSign_append_left, lexSign_cons_cons, if_neg nonzero]
        have : (0 : UInt8) < next := by
          rw [UInt8.lt_iff_toNat_lt]
          have := mt UInt8.toNat_inj.mp nonzero
          simp at this ⊢
          omega
        rw [if_pos this]
  · -- Otherwise the two diverge already.
    have notBack : ¬b <+: a := fun back => absurd lt (by simpa using back.le)
    have diverge := diverge_of_not_isPrefix continues notBack
    refine ⟨by simpa using diverge.append_right [0] [], ?_⟩
    rw [← lexSign_eq_neg_one_iff, ← List.append_nil b, diverge.lexSign_append,
      lexSign_eq_neg_one_iff]
    exact lt

/-- A cut of a string is a prefix of every longer cut of it continued, whatever follows. -/
theorem take_prefix_take_append (b t : List UInt8) {m n : Nat} (shorter : m ≤ n)
    (rest : List UInt8) : b.take m <+: (b ++ t).take n ++ rest := by
  have continued : b.take m <+: (b ++ t).take m := by
    rw [List.take_append]
    exact List.prefix_append _ _
  exact (continued.trans (List.take_prefix_take_left shorter)).trans (List.prefix_append _ _)

/-- A string at or below another that the other does not continue with a zero byte, once
terminated by a zero byte and cut at any length, stays below each shorter cut of the other
or extends it, whatever follows. -/
theorem take_append_zero_lt_or_prefix {a b : List UInt8} (le : ¬b < a)
    (notNext : ¬a ++ [0] <+: b) {m n : Nat} (shorter : m ≤ n) (rest : List UInt8) :
    (a ++ [0]).take n ++ rest < b.take m ∨ b.take m <+: (a ++ [0]).take n ++ rest := by
  rcases lt_trichotomy a b with lt | rfl | gt
  · obtain ⟨diverge, below⟩ := diverge_append_zero_of_lt lt notNext
    exact take_append_lt_or_prefix diverge below shorter rest
  · exact Or.inr (take_prefix_take_append a [0] shorter rest)
  · exact absurd gt le

/-! ## Prefix-free codes

Replacing every byte by a code word keeps the order of strings when the code words are
ordered like the bytes and any two different ones diverge. -/

theorem lexSign_flatMap {code : UInt8 → List UInt8}
    (ordered : ∀ x y, lexSign (code x) (code y) = lexSign [x] [y])
    (separated : ∀ x y, x ≠ y → Diverge (code x) (code y))
    (nonempty : ∀ x, code x ≠ []) (a b : List UInt8) :
    lexSign (a.flatMap code) (b.flatMap code) = lexSign a b := by
  induction a generalizing b with
  | nil =>
      cases b with
      | nil => rfl
      | cons y rest =>
          exact lexSign_nil_of_ne_nil (by simp [nonempty y])
  | cons x rest ih =>
      cases b with
      | nil =>
          exact lexSign_of_ne_nil_nil (by simp [nonempty x])
      | cons y rest' =>
          simp only [List.flatMap_cons]
          by_cases same : x = y
          · subst same
            rw [lexSign_append_left, ih, lexSign_cons_cons]
            simp
          · rw [(separated x y same).lexSign_append, ordered, lexSign_cons_cons, lexSign_cons_cons]
            simp [same]

end Bytes
