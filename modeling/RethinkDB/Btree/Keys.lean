import RethinkDB.Foundations.Lexicographic
import Mathlib.Order.WithBot
import Mathlib.Order.MinMax
import Mathlib.Order.Cover
import Mathlib.Data.Set.Basic

/-!
# B-tree keys and key ranges

A `store_key_t` is a byte string of at most `MAX_KEY_SIZE` bytes, ordered by
`sized_strcmp`: `memcmp` over the common length, then the lengths.  A `key_range_t` is
a closed left key and a right bound that is either absent or an open right key; its
constructor turns open left and closed right bounds into that form with
`store_key_t::increment`, the next key in the order among keys of at most
`MAX_KEY_SIZE` bytes.

`increment` appends a zero byte when there is room, and otherwise drops the trailing
`0xFF` bytes and increments the last byte left.  That second step, on its own, is the
end key of `sindex_key_range`: the least string above every extension of the key.
-/

namespace RethinkDB
namespace Btree

open Bytes

/-- `MAX_KEY_SIZE`. -/
def maxKeySize : Nat := 250

/-- `sized_strcmp`. -/
def sizedStrcmp (a b : List UInt8) : Int :=
  let res := memcmp a b (min a.length b.length)
  if res = 0 then (a.length : Int) - b.length else res

theorem sizedStrcmp_sign (a b : List UInt8) : (sizedStrcmp a b).sign = lexSign a b := by
  apply sign_memcmp_then_length
  split_ifs with lt same
  · exact Int.sign_eq_neg_one_of_neg (by omega)
  · simp [same]
  · exact Int.sign_eq_one_of_pos (by omega)

theorem sizedStrcmp_neg_iff {a b : List UInt8} : sizedStrcmp a b < 0 ↔ a < b := by
  rw [← Int.sign_eq_neg_one_iff_neg, sizedStrcmp_sign, lexSign_eq_neg_one_iff]

theorem sizedStrcmp_nonpos_iff {a b : List UInt8} : sizedStrcmp a b ≤ 0 ↔ ¬b < a := by
  rw [← Int.not_lt, ← Int.sign_eq_one_iff_pos, sizedStrcmp_sign, lexSign_eq_one_iff]

theorem sizedStrcmp_pos_iff {a b : List UInt8} : 0 < sizedStrcmp a b ↔ b < a := by
  rw [← Int.sign_eq_one_iff_pos, sizedStrcmp_sign, lexSign_eq_one_iff]

theorem sizedStrcmp_eq_zero_iff {a b : List UInt8} : sizedStrcmp a b = 0 ↔ a = b := by
  rw [← Int.sign_eq_zero_iff_zero, sizedStrcmp_sign, lexSign_eq_zero_iff]

/-- `store_key_t`: at most `MAX_KEY_SIZE` bytes. -/
structure StoreKey where
  contents : List UInt8
  size_le : contents.length ≤ maxKeySize
  deriving DecidableEq

/-- `store_key_t::min()`, the empty key. -/
def StoreKey.min : StoreKey := ⟨[], Nat.zero_le _⟩

/-- The key of one byte. -/
def StoreKey.ofByte (b : UInt8) : StoreKey := ⟨[b], by simp [maxKeySize]⟩

/-- `store_key_t::max()`. -/
def StoreKey.max : StoreKey := ⟨List.replicate maxKeySize 255, by simp⟩

/-- The loop `while (size > 0 && last == 255) --size; ++last`, on the bytes read from the
end: skip the `0xFF` bytes and increment the first other one. -/
def incrementReversed : List UInt8 → Option (List UInt8)
  | [] => none
  | last :: earlier => if last = 255 then incrementReversed earlier else some ((last + 1) :: earlier)

/-- The least string above every extension of `bytes`, or `none` when `bytes` is all
`0xFF`. -/
def prefixSuccessor (bytes : List UInt8) : Option (List UInt8) :=
  (incrementReversed bytes.reverse).map List.reverse

theorem incrementReversed_eq_some {reversed successor : List UInt8}
    (found : incrementReversed reversed = some successor) :
    ∃ run last earlier, last ≠ 255 ∧ reversed = List.replicate run 255 ++ last :: earlier ∧
      successor = (last + 1) :: earlier := by
  induction reversed with
  | nil => cases found
  | cons last earlier ih =>
      unfold incrementReversed at found
      split at found
      · rename_i full
        obtain ⟨run, kept, rest, notFull, rfl, rfl⟩ := ih found
        exact ⟨run + 1, kept, rest, notFull, by simp [full, List.replicate_succ], rfl⟩
      · rename_i notFull
        cases found
        exact ⟨0, last, earlier, notFull, rfl, rfl⟩

/-- A string that is not all `0xFF` is a kept part, a last byte below `0xFF` and a run of
`0xFF`; its prefix successor increments that last byte. -/
theorem prefixSuccessor_eq_some {bytes successor : List UInt8}
    (found : prefixSuccessor bytes = some successor) :
    ∃ kept last run, last ≠ 255 ∧ bytes = kept ++ last :: List.replicate run 255 ∧
      successor = kept ++ [last + 1] := by
  obtain ⟨reversed, bumped, rfl⟩ := Option.map_eq_some_iff.mp found
  obtain ⟨run, last, earlier, notFull, split, rfl⟩ := incrementReversed_eq_some bumped
  refine ⟨earlier.reverse, last, run, notFull, ?_, by simp⟩
  rw [← List.reverse_reverse bytes, split]
  simp

theorem prefixSuccessor_isSome {bytes : List UInt8} {b : UInt8} (member : b ∈ bytes)
    (notFull : b ≠ 255) : (prefixSuccessor bytes).isSome := by
  suffices ∀ reversed : List UInt8, b ∈ reversed → (incrementReversed reversed).isSome by
    simpa [prefixSuccessor] using this bytes.reverse (List.mem_reverse.mpr member)
  intro reversed
  induction reversed with
  | nil => simp
  | cons last earlier ih =>
      intro inside
      unfold incrementReversed
      split
      · rename_i full
        rcases List.mem_cons.mp inside with here | later
        · exact absurd (here.trans full) notFull
        · exact ih later
      · rfl

theorem prefixSuccessor_length_le {bytes successor : List UInt8}
    (found : prefixSuccessor bytes = some successor) : successor.length ≤ bytes.length := by
  obtain ⟨kept, last, run, -, rfl, rfl⟩ := prefixSuccessor_eq_some found
  simp

theorem toNat_add_one_of_ne {last : UInt8} (notFull : last ≠ 255) :
    (last + 1).toNat = last.toNat + 1 := by
  have : last.toNat ≠ 255 := fun full => notFull (UInt8.toNat_inj.mp (by simpa using full))
  have bound := last.toNat_lt
  rw [UInt8.toNat_add, UInt8.toNat_one]
  omega

/-- A byte below `0xFF` is below its increment. -/
theorem lt_add_one_of_ne {last : UInt8} (notFull : last ≠ 255) : last < last + 1 := by
  rw [UInt8.lt_iff_toNat_lt, toNat_add_one_of_ne notFull]
  omega

/-- Every extension of `bytes` lies below its prefix successor. -/
theorem lt_prefixSuccessor_of_isPrefix {bytes successor s : List UInt8}
    (found : prefixSuccessor bytes = some successor) (extends_ : bytes <+: s) : s < successor := by
  obtain ⟨kept, last, run, notFull, rfl, rfl⟩ := prefixSuccessor_eq_some found
  obtain ⟨tail, rfl⟩ := extends_
  rw [← lexSign_eq_neg_one_iff]
  have increases := lt_add_one_of_ne notFull
  have differ : last ≠ last + 1 := fun same => UInt8.lt_irrefl last (by rwa [← same] at increases)
  simp only [List.append_assoc, List.cons_append, lexSign_append_left, lexSign_cons_cons,
    differ, if_false, increases, if_true]

/-- Below the prefix successor lies every string below `bytes` or extending it. -/
theorem lt_prefixSuccessor_of_lt_or_prefix {bytes successor s : List UInt8}
    (found : prefixSuccessor bytes = some successor) (below : s < bytes ∨ bytes <+: s) :
    s < successor := by
  rcases below with lt | extends_
  · exact List.lt_trans lt (lt_prefixSuccessor_of_isPrefix found (List.prefix_refl bytes))
  · exact lt_prefixSuccessor_of_isPrefix found extends_

/-- A key whose first byte is not `0xFF` lies below `store_key_t::max()`. -/
theorem lt_max_of_first_lt {first : UInt8} {rest : List UInt8} (lt : first < 255) :
    first :: rest < StoreKey.max.contents :=
  List.cons_lt_cons_iff.mpr (Or.inl lt)

/-- A run of `0xFF` is below a string only as a prefix of it. -/
theorem prefix_of_replicate_lt {run : Nat} {s : List UInt8} (lt : List.replicate run 255 < s) :
    List.replicate run 255 <+: s := by
  induction run generalizing s with
  | zero => exact List.nil_prefix
  | succ run ih =>
      cases s with
      | nil => exact absurd lt (List.not_lt_nil _)
      | cons first rest =>
          rw [List.replicate_succ, List.cons_lt_cons_iff] at lt
          rcases lt with above | ⟨same, tail⟩
          · have := UInt8.lt_iff_toNat_lt.mp above
            have : first.toNat < 256 := first.toNat_lt
            have : (255 : UInt8).toNat = 255 := rfl
            omega
          · subst same
            rw [List.replicate_succ]
            exact (List.prefix_cons_inj 255).mpr (ih tail)

/-- The prefix successor is the least string above `bytes` that does not extend it. -/
theorem prefixSuccessor_le_of_lt {bytes successor y : List UInt8}
    (found : prefixSuccessor bytes = some successor) (above : bytes < y)
    (notExtension : ¬bytes <+: y) : ¬y < successor := by
  obtain ⟨kept, last, run, notFull, rfl, rfl⟩ := prefixSuccessor_eq_some found
  clear found
  -- Induction along the kept part, which the successor shares with `bytes`.
  induction kept generalizing y with
  | nil =>
      cases y with
      | nil => exact absurd above (List.not_lt_nil _)
      | cons first rest =>
          simp only [List.nil_append, List.cons_lt_cons_iff] at above ⊢
          rcases above with lt | ⟨rfl, tail⟩
          · -- `last < first`, so `last + 1 ≤ first`.
            rintro (below | ⟨-, tailBelow⟩)
            · have := UInt8.lt_iff_toNat_lt.mp lt
              have := UInt8.lt_iff_toNat_lt.mp below
              rw [toNat_add_one_of_ne notFull] at this
              omega
            · exact List.not_lt_nil _ tailBelow
          · -- Below the run of `0xFF` only an extension of `bytes` can lie.
            exact absurd ((List.prefix_cons_inj last).mpr (prefix_of_replicate_lt tail))
              (by simpa using notExtension)
  | cons first kept ih =>
      cases y with
      | nil => exact absurd above (List.not_lt_nil _)
      | cons yFirst rest =>
          simp only [List.cons_append, List.cons_lt_cons_iff] at above ⊢
          rcases above with lt | ⟨rfl, tail⟩
          · rintro (below | ⟨same, -⟩)
            · exact UInt8.lt_asymm lt below
            · subst same
              exact UInt8.lt_irrefl _ lt
          · rintro (below | ⟨-, tailBelow⟩)
            · exact UInt8.lt_irrefl _ below
            · exact ih tail (fun extension => notExtension ((List.prefix_cons_inj first).mpr extension))
                tailBelow

/-- Appending the least byte gives the next string in the order. -/
theorem append_zero_le_of_lt {a y : List UInt8} (above : a < y) : ¬y < a ++ [0] := by
  induction a generalizing y with
  | nil =>
      cases y with
      | nil => exact absurd above (List.not_lt_nil _)
      | cons first rest =>
          rw [List.nil_append, List.cons_lt_cons_iff]
          rintro (below | ⟨-, tail⟩)
          · exact absurd (UInt8.lt_iff_toNat_lt.mp below) (by simp)
          · exact List.not_lt_nil _ tail
  | cons x a ih =>
      cases y with
      | nil => exact absurd above (List.not_lt_nil _)
      | cons first rest =>
          rw [List.cons_lt_cons_iff] at above
          rw [List.cons_append, List.cons_lt_cons_iff]
          rintro (below | ⟨same, tail⟩)
          · rcases above with lt | ⟨same, -⟩
            · exact UInt8.lt_asymm lt below
            · subst same
              exact UInt8.lt_irrefl _ below
          · subst same
            rcases above with lt | ⟨-, tailAbove⟩
            · exact UInt8.lt_irrefl _ lt
            · exact ih tailAbove tail

/-! ## `increment` -/

/-- `store_key_t::increment`: the next key and whether there was one. -/
def StoreKey.increment (key : StoreKey) : StoreKey × Bool :=
  if room : key.contents.length < maxKeySize then
    (⟨key.contents ++ [0], by simp; omega⟩, true)
  else
    match found : prefixSuccessor key.contents with
    | some successor =>
        (⟨successor, Nat.le_trans (prefixSuccessor_length_le found) key.size_le⟩, true)
    | none => (StoreKey.max, false)

theorem StoreKey.lt_increment {key : StoreKey} (succeeded : key.increment.2 = true) :
    key.contents < key.increment.1.contents := by
  unfold StoreKey.increment at succeeded ⊢
  split
  · simpa using (List.append_left_lt (List.nil_lt_cons 0 []) : key.contents ++ [] < _)
  · split
    · rename_i successor found
      exact lt_prefixSuccessor_of_isPrefix found (List.prefix_refl _)
    · rename_i room _
      simp [room] at succeeded
      split at succeeded <;> simp_all

/-- A successful increment gives the least key above `key`: nothing of at most
`MAX_KEY_SIZE` bytes lies strictly between them. -/
theorem StoreKey.increment_le_of_lt {key : StoreKey} (succeeded : key.increment.2 = true)
    {y : List UInt8} (above : key.contents < y) (fits : y.length ≤ maxKeySize) :
    ¬y < key.increment.1.contents := by
  unfold StoreKey.increment at succeeded ⊢
  split
  · exact append_zero_le_of_lt above
  · rename_i room
    split
    · rename_i successor found
      -- A full key has no extension of at most `MAX_KEY_SIZE` bytes other than itself.
      refine prefixSuccessor_le_of_lt found above fun extension => ?_
      have full : key.contents.length = maxKeySize := by have := key.size_le; omega
      have same := extension.eq_of_length (by have := extension.length_le; omega)
      exact List.lt_irrefl _ (same ▸ above)
    · simp [room] at succeeded
      split at succeeded <;> simp_all

/-- A key with a byte below `0xFF` always has a next key. -/
theorem StoreKey.increment_succeeds {key : StoreKey} {b : UInt8} (member : b ∈ key.contents)
    (notFull : b ≠ 255) : key.increment.2 = true := by
  unfold StoreKey.increment
  split
  · rfl
  · split
    · rfl
    · rename_i missing
      have := prefixSuccessor_isSome member notFull
      simp [missing] at this

/-- The only key with no next key is `store_key_t::max()`. -/
theorem StoreKey.eq_max_of_increment_false {key : StoreKey} (failed : key.increment.2 = false) :
    key = StoreKey.max := by
  have allFull : ∀ b ∈ key.contents, b = 255 := by
    intro b member
    by_contra notFull
    rw [StoreKey.increment_succeeds member notFull] at failed
    cases failed
  have full : key.contents.length = maxKeySize := by
    by_contra short
    unfold StoreKey.increment at failed
    rw [dif_pos (by have := key.size_le; omega)] at failed
    cases failed
  cases key
  simp only [StoreKey.max, StoreKey.mk.injEq]
  exact List.eq_replicate_iff.mpr ⟨full, allFull⟩

/-- Nothing of at most `n` bytes lies above a run of `n` bytes `0xFF`. -/
theorem not_replicate_lt {n : Nat} {y : List UInt8} (fits : y.length ≤ n) :
    ¬List.replicate n 255 < y := by
  intro above
  have extension := prefix_of_replicate_lt above
  have same := extension.eq_of_length (by have := extension.length_le; simp at *; omega)
  exact List.lt_irrefl _ (same ▸ above)

/-- Nothing of at most `MAX_KEY_SIZE` bytes lies above `store_key_t::max()`. -/
theorem not_max_lt {y : List UInt8} (fits : y.length ≤ maxKeySize) :
    ¬StoreKey.max.contents < y :=
  not_replicate_lt fits

/-- `store_key_t::max()` is the one key `increment` fails on; it is left as it is. -/
theorem StoreKey.increment_max : StoreKey.max.increment = (StoreKey.max, false) := by
  have allFull : ∀ n, incrementReversed (List.replicate n 255) = none := by
    intro n
    induction n with
    | zero => rfl
    | succ n ih => simp [List.replicate_succ, incrementReversed, ih]
  have noSuccessor : prefixSuccessor StoreKey.max.contents = none := by
    simp [prefixSuccessor, StoreKey.max, List.reverse_replicate, allFull]
  unfold StoreKey.increment
  rw [dif_neg (by simp [StoreKey.max])]
  split
  · rename_i successor found
    rw [noSuccessor] at found
    cases found
  · rfl

/-! ## `decrement` -/

/-- `store_key_t::decrement`: the empty key has no predecessor; a last byte above zero is
decremented and the key padded with `0xFF` to `MAX_KEY_SIZE`; a last zero byte is dropped. -/
def StoreKey.decrement (key : StoreKey) : StoreKey × Bool :=
  if empty : key.contents = [] then (key, false)
  else
    let last := key.contents.getLast empty
    if 0 < last then
      (⟨key.contents.dropLast ++ [last - 1] ++ List.replicate (maxKeySize - key.contents.length) 255,
        by have := key.size_le; have := List.length_pos_of_ne_nil empty; simp; omega⟩, true)
    else (⟨key.contents.dropLast, by have := key.size_le; simp; omega⟩, true)

/-- The key before `store_key_t::max()`. -/
theorem StoreKey.decrement_max :
    StoreKey.max.decrement.1.contents = List.replicate (maxKeySize - 1) 255 ++ [254] ∧
      StoreKey.max.decrement.2 = true := by
  -- keep maxKeySize folded: unfolding it makes simp expand the replicate
  have split : StoreKey.max.contents = List.replicate (maxKeySize - 1) 255 ++ [255] :=
    (List.replicate_succ' : List.replicate (maxKeySize - 1 + 1) (255 : UInt8) = _)
  have notEmpty : StoreKey.max.contents ≠ [] := by simp [split]
  have last : StoreKey.max.contents.getLast notEmpty = 255 := by simp [split]
  have length : StoreKey.max.contents.length = maxKeySize := List.length_replicate
  unfold StoreKey.decrement
  rw [dif_neg notEmpty]
  simp only [last, show (0 : UInt8) < 255 by decide, if_true, and_true, length, Nat.sub_self,
    List.replicate_zero, List.append_nil]
  rw [split, List.dropLast_concat]
  rfl

theorem toNat_sub_one_of_pos {b : UInt8} (pos : 0 < b) : (b - 1).toNat = b.toNat - 1 := by
  have := UInt8.lt_iff_toNat_lt.mp pos
  rw [UInt8.toNat_sub_of_le b 1 (UInt8.le_iff_toNat_le.mpr (by simp; omega))]
  rfl

/-- Decrementing the last byte, above zero, goes below. -/
theorem decremented_lt {last : UInt8} (pos : 0 < last) (init : List UInt8) (m : Nat) :
    init ++ (last - 1) :: List.replicate m 255 < init ++ [last] := by
  apply List.append_left_lt
  apply List.cons_lt_cons_iff.mpr
  left
  have := UInt8.lt_iff_toNat_lt.mp pos
  rw [UInt8.lt_iff_toNat_lt, toNat_sub_one_of_pos pos]
  simp at this
  omega

/-- Below a string ending in a byte above zero, the decremented last byte followed by
`0xFF` bytes is the greatest string that fits in the same room. -/
theorem not_decremented_lt {last : UInt8} (pos : 0 < last) {m : Nat} :
    ∀ {init y : List UInt8}, y.length ≤ init.length + 1 + m → y < init ++ [last] →
      ¬init ++ (last - 1) :: List.replicate m 255 < y := by
  intro init
  induction init with
  | nil =>
      intro y fits below
      cases y with
      | nil => exact List.not_lt_nil _
      | cons first rest =>
          simp only [List.nil_append, List.cons_lt_cons_iff] at below ⊢
          rintro (above | ⟨-, tail⟩)
          · rcases below with lt | ⟨-, tailBelow⟩
            · -- `first < last` leaves no room above `last - 1`
              have := UInt8.lt_iff_toNat_lt.mp lt
              have := UInt8.lt_iff_toNat_lt.mp above
              rw [toNat_sub_one_of_pos pos] at this
              omega
            · exact List.not_lt_nil _ tailBelow
          · exact not_replicate_lt (by simp at fits; omega) tail
  | cons x init ih =>
      intro y fits below
      cases y with
      | nil => exact List.not_lt_nil _
      | cons first rest =>
          simp only [List.cons_append, List.cons_lt_cons_iff] at below ⊢
          rintro (above | ⟨same, tail⟩)
          · rcases below with lt | ⟨same, -⟩
            · exact UInt8.lt_asymm lt above
            · subst same
              exact UInt8.lt_irrefl _ above
          · subst same
            rcases below with lt | ⟨-, tailBelow⟩
            · exact UInt8.lt_irrefl _ lt
            · exact ih (by simp at fits; omega) tailBelow tail

/-- What `decrement` does to a key that is not empty: the last byte is decremented and the
room after it filled with `0xFF`, or a last zero byte is dropped. -/
theorem StoreKey.decrement_spec {key : StoreKey} (nonempty : key.contents ≠ []) :
    key.decrement.2 = true ∧
      ((0 < key.contents.getLast nonempty ∧ key.decrement.1.contents =
          key.contents.dropLast ++ (key.contents.getLast nonempty - 1) ::
            List.replicate (maxKeySize - key.contents.length) 255) ∨
        (key.contents.getLast nonempty = 0 ∧
          key.decrement.1.contents = key.contents.dropLast)) := by
  unfold StoreKey.decrement
  rw [dif_neg nonempty]
  dsimp only
  split_ifs with pos
  · exact ⟨rfl, .inl ⟨pos, by simp⟩⟩
  · refine ⟨rfl, .inr ⟨?_, rfl⟩⟩
    have := UInt8.lt_iff_toNat_lt.not.mp pos
    exact UInt8.toNat_inj.mp (by simp at this ⊢; omega)

/-! ## Key ranges -/

/-- `key_range_t::bound_t`. -/
inductive BoundT where
  | «open»
  | closed
  | none
  deriving DecidableEq, Repr

/-- `key_range_t::right_bound_t`: unbounded, or an open right key. -/
inductive RightBound where
  | unbounded
  | bounded (key : StoreKey)
  deriving DecidableEq

/-- `key_range_t`: a closed left key and a right bound. -/
structure KeyRange where
  left : StoreKey
  right : RightBound
  deriving DecidableEq

/-- `key_range_t::empty()`, the default range, which contains no key. -/
def KeyRange.empty : KeyRange := ⟨StoreKey.min, .bounded StoreKey.min⟩

/-- The constructor `key_range_t(lm, l, rm, r)`. -/
def KeyRange.make (lm : BoundT) (l : StoreKey) (rm : BoundT) (r : StoreKey) : KeyRange :=
  let left : Option StoreKey :=
    match lm with
    | .closed => some l
    | .«open» => if l.increment.2 then some l.increment.1 else none
    | .none => some StoreKey.min
  match left with
  | none => KeyRange.empty
  | some left =>
      let right : RightBound :=
        match rm with
        | .closed => if r.increment.2 then .bounded r.increment.1 else .unbounded
        | .«open» => .bounded r
        | .none => .unbounded
      ⟨left, right⟩

/-- `key_range_t::contains_key`. -/
def KeyRange.containsKey (range : KeyRange) (key : StoreKey) : Bool :=
  decide (sizedStrcmp range.left.contents key.contents ≤ 0) &&
    match range.right with
    | .unbounded => true
    | .bounded right => decide (sizedStrcmp key.contents right.contents < 0)

/-- What a left bound admits. -/
def BoundT.admitsLeft : BoundT → List UInt8 → List UInt8 → Prop
  | .closed, bound, key => ¬key < bound
  | .«open», bound, key => bound < key
  | .none, _, _ => True

/-- What a right bound admits. -/
def BoundT.admitsRight : BoundT → List UInt8 → List UInt8 → Prop
  | .closed, bound, key => ¬bound < key
  | .«open», bound, key => key < bound
  | .none, _, _ => True

theorem KeyRange.containsKey_empty (key : StoreKey) : KeyRange.empty.containsKey key = false := by
  simp [KeyRange.containsKey, KeyRange.empty, StoreKey.min, sizedStrcmp_neg_iff,
    List.not_lt_nil]

/-- An open left bound is the next key, closed. -/
theorem StoreKey.increment_le_iff {bound key : StoreKey} (succeeded : bound.increment.2 = true) :
    ¬key.contents < bound.increment.1.contents ↔ bound.contents < key.contents := by
  constructor
  · intro notBelow
    rcases lt_trichotomy bound.contents key.contents with lt | same | gt
    · exact lt
    · exact absurd (same ▸ StoreKey.lt_increment succeeded) notBelow
    · exact absurd (List.lt_trans gt (StoreKey.lt_increment succeeded)) notBelow
  · intro above
    exact StoreKey.increment_le_of_lt succeeded above key.size_le

/-- A closed right bound is the next key, open. -/
theorem StoreKey.lt_increment_iff {bound key : StoreKey} (succeeded : bound.increment.2 = true) :
    key.contents < bound.increment.1.contents ↔ ¬bound.contents < key.contents := by
  rw [← not_iff_not, not_not, StoreKey.increment_le_iff succeeded]

/-- The constructor of `key_range_t` denotes exactly the keys its bounds admit. -/
theorem KeyRange.containsKey_make (lm : BoundT) (l : StoreKey) (rm : BoundT) (r key : StoreKey) :
    (KeyRange.make lm l rm r).containsKey key = true ↔
      lm.admitsLeft l.contents key.contents ∧ rm.admitsRight r.contents key.contents := by
  -- The right bound, whichever left bound the range gets.
  have right : ∀ left : StoreKey,
      (KeyRange.containsKey ⟨left, match rm with
        | .closed => if r.increment.2 then .bounded r.increment.1 else .unbounded
        | .«open» => .bounded r
        | .none => .unbounded⟩ key = true) ↔
        ¬key.contents < left.contents ∧ rm.admitsRight r.contents key.contents := by
    intro left
    cases rm with
    | closed =>
        by_cases succeeded : r.increment.2 = true
        · simp [KeyRange.containsKey, succeeded, sizedStrcmp_nonpos_iff, sizedStrcmp_neg_iff,
            StoreKey.lt_increment_iff succeeded, BoundT.admitsRight]
        · -- Only `store_key_t::max()` has no next key, and nothing fitting lies above it.
          have maximal := StoreKey.eq_max_of_increment_false (by simpa using succeeded)
          subst maximal
          simp [KeyRange.containsKey, succeeded, sizedStrcmp_nonpos_iff, BoundT.admitsRight,
            not_max_lt key.size_le]
    | «open» =>
        simp [KeyRange.containsKey, sizedStrcmp_nonpos_iff, sizedStrcmp_neg_iff,
          BoundT.admitsRight]
    | none => simp [KeyRange.containsKey, sizedStrcmp_nonpos_iff, BoundT.admitsRight]
  cases lm with
  | closed => simpa [KeyRange.make, BoundT.admitsLeft] using right l
  | «open» =>
      by_cases succeeded : l.increment.2 = true
      · simpa [KeyRange.make, succeeded, BoundT.admitsLeft, StoreKey.increment_le_iff succeeded]
          using right l.increment.1
      · -- An open left bound at `store_key_t::max()` leaves the range empty.
        have maximal := StoreKey.eq_max_of_increment_false (by simpa using succeeded)
        subst maximal
        simp [KeyRange.make, succeeded, KeyRange.containsKey_empty, BoundT.admitsLeft,
          not_max_lt key.size_le]
  | none =>
      simpa [KeyRange.make, BoundT.admitsLeft, StoreKey.min, List.not_lt_nil] using
        right StoreKey.min

/-! ## The order of keys

`store_key_t`'s comparisons are its `compare`, which is `sized_strcmp`, the lexicographic
order of the bytes (`StoreKey.lt_iff_sizedStrcmp`).  A right bound is a key or the top:
`right_bound_t`'s `operator<` puts the unbounded one above every key.  With these orders
the operations of `key_range_t` are `max`, `min` and interval intersection.
-/

theorem StoreKey.ext_contents {a b : StoreKey} (same : a.contents = b.contents) : a = b := by
  cases a
  cases b
  cases same
  rfl

instance : LinearOrder StoreKey where
  le a b := a.contents ≤ b.contents
  lt a b := a.contents < b.contents
  le_refl a := List.le_refl a.contents
  le_trans _ _ _ := List.le_trans
  lt_iff_le_not_ge _ _ :=
    ⟨fun lt => ⟨List.le_of_lt lt, not_not.mpr lt⟩, fun both => not_not.mp both.2⟩
  le_antisymm _ _ ab ba := StoreKey.ext_contents (List.le_antisymm ab ba)
  le_total a b := List.le_total a.contents b.contents
  toDecidableLE a b := inferInstanceAs (Decidable (a.contents ≤ b.contents))
  toDecidableLT a b := inferInstanceAs (Decidable (a.contents < b.contents))

/-- `store_key_t::operator<` is `compare(...) < 0`, which is this order. -/
theorem StoreKey.lt_iff_sizedStrcmp {a b : StoreKey} :
    a < b ↔ sizedStrcmp a.contents b.contents < 0 :=
  sizedStrcmp_neg_iff.symm

/-- `store_key_t::operator<=` is `compare(...) <= 0`, which is this order. -/
theorem StoreKey.le_iff_sizedStrcmp {a b : StoreKey} :
    a ≤ b ↔ sizedStrcmp a.contents b.contents ≤ 0 :=
  sizedStrcmp_nonpos_iff.symm

/-- `store_key_t()`, the empty key, is the least key. -/
theorem StoreKey.min_le (key : StoreKey) : StoreKey.min ≤ key :=
  fun below => List.not_lt_nil _ below

/-- A right bound as a key or the top. -/
def RightBound.toWithTop : RightBound → WithTop StoreKey
  | .unbounded => ⊤
  | .bounded key => key

theorem RightBound.toWithTop_injective : Function.Injective RightBound.toWithTop := by
  intro a b same
  cases a <;> cases b <;> simp_all [RightBound.toWithTop]

instance : LinearOrder RightBound :=
  LinearOrder.lift' RightBound.toWithTop RightBound.toWithTop_injective

/-- `operator<(const right_bound_t &, const right_bound_t &)`. -/
def RightBound.lt : RightBound → RightBound → Bool
  | .unbounded, _ => false
  | .bounded _, .unbounded => true
  | .bounded a, .bounded b => decide (a < b)

@[simp] theorem RightBound.bounded_lt_bounded {a b : StoreKey} :
    RightBound.bounded a < RightBound.bounded b ↔ a < b :=
  WithTop.coe_lt_coe

@[simp] theorem RightBound.bounded_lt_unbounded (a : StoreKey) :
    RightBound.bounded a < RightBound.unbounded :=
  WithTop.coe_lt_top a

@[simp] theorem RightBound.not_unbounded_lt (b : RightBound) : ¬RightBound.unbounded < b := by
  change ¬(⊤ : WithTop StoreKey) < b.toWithTop
  exact not_top_lt

@[simp] theorem RightBound.bounded_le_bounded {a b : StoreKey} :
    RightBound.bounded a ≤ RightBound.bounded b ↔ a ≤ b :=
  WithTop.coe_le_coe

@[simp] theorem RightBound.le_unbounded (b : RightBound) : b ≤ RightBound.unbounded :=
  le_top (a := b.toWithTop)

/-- The source's `operator<` is this order. -/
theorem RightBound.lt_iff (a b : RightBound) : RightBound.lt a b = true ↔ a < b := by
  cases a <;> cases b <;> simp [RightBound.lt]

/-! ## Successor and predecessor -/

/-- Only the empty key, `store_key_t::min()`, has no predecessor. -/
theorem StoreKey.decrement_eq_false_iff {key : StoreKey} :
    key.decrement.2 = false ↔ key = StoreKey.min := by
  by_cases empty : key.contents = []
  · have : key = StoreKey.min := StoreKey.ext_contents empty
    subst this
    exact ⟨fun _ => rfl, fun _ => rfl⟩
  · rw [(StoreKey.decrement_spec empty).1]
    exact ⟨fun failed => absurd failed (by decide),
      fun same => absurd (congrArg StoreKey.contents same) empty⟩

/-- A successful decrement gives the greatest key below `key`. -/
theorem StoreKey.isGreatest_decrement {key : StoreKey} (succeeded : key.decrement.2 = true) :
    IsGreatest (Set.Iio key) key.decrement.1 := by
  have nonempty : key.contents ≠ [] := by
    intro empty
    rw [StoreKey.decrement_eq_false_iff.mpr (StoreKey.ext_contents empty)] at succeeded
    cases succeeded
  have split := List.dropLast_append_getLast nonempty
  have fits := key.size_le
  rcases (StoreKey.decrement_spec nonempty).2 with ⟨pos, decremented⟩ | ⟨zero, dropped⟩
  · -- The last byte goes down by one and the room after it fills with `0xFF`.
    refine ⟨?_, fun y below => not_lt.mp ?_⟩
    · show key.decrement.1.contents < key.contents
      have := decremented_lt pos key.contents.dropLast (maxKeySize - key.contents.length)
      rwa [split, ← decremented] at this
    · show ¬key.decrement.1.contents < y.contents
      have below' : y.contents < key.contents.dropLast ++ [key.contents.getLast nonempty] := by
        rw [split]
        exact below
      rw [decremented]
      have := y.size_le
      have := List.length_pos_of_ne_nil nonempty
      exact not_decremented_lt pos (by simp only [List.length_dropLast]; omega) below'
  · -- A last zero byte is dropped.
    refine ⟨?_, fun y below => not_lt.mp ?_⟩
    · show key.decrement.1.contents < key.contents
      rw [dropped, ← split, zero]
      simpa using (List.append_left_lt (List.nil_lt_cons 0 []) : key.contents.dropLast ++ [] < _)
    · show ¬key.decrement.1.contents < y.contents
      have below' : y.contents < key.contents.dropLast ++ [0] := by
        rw [← zero, split]
        exact below
      rw [dropped]
      exact fun above => append_zero_le_of_lt above below'

/-- A successful increment gives the key just above: nothing lies strictly between. -/
theorem StoreKey.increment_covBy {key : StoreKey} (succeeded : key.increment.2 = true) :
    key ⋖ key.increment.1 :=
  ⟨StoreKey.lt_increment succeeded, fun y above below =>
    StoreKey.increment_le_of_lt succeeded above y.size_le below⟩

theorem StoreKey.decrement_covBy {key : StoreKey} (succeeded : key.decrement.2 = true) :
    key.decrement.1 ⋖ key := by
  obtain ⟨below, greatest⟩ := StoreKey.isGreatest_decrement succeeded
  exact ⟨below, fun y above under => not_le.mpr above (greatest under)⟩

theorem StoreKey.increment_eq_false_iff {key : StoreKey} :
    key.increment.2 = false ↔ key = StoreKey.max := by
  constructor
  · exact StoreKey.eq_max_of_increment_false
  · intro maximal
    rw [maximal, StoreKey.increment_max]

theorem StoreKey.increment_fst_of_false {key : StoreKey} (failed : key.increment.2 = false) :
    key.increment.1 = key := by
  rw [StoreKey.eq_max_of_increment_false failed, StoreKey.increment_max]

/-- **`increment` and `decrement` are the successor and the predecessor** among keys of at
most `MAX_KEY_SIZE` bytes, in the order of `sized_strcmp`. -/
theorem increment_decrement_adjacent :
    (∀ key : StoreKey, key.increment.2 = true → key ⋖ key.increment.1) ∧
    (∀ key : StoreKey, key.increment.2 = false ↔ key = StoreKey.max) ∧
    (∀ key : StoreKey, key.increment.2 = false → key.increment.1 = key) ∧
    (∀ key : StoreKey, key.decrement.2 = false ↔ key = StoreKey.min) ∧
    (∀ key : StoreKey, key.decrement.2 = true → IsGreatest (Set.Iio key) key.decrement.1) ∧
    (∀ key : StoreKey, key.increment.2 = true → key.increment.1.decrement.2 = true →
      key.increment.1.decrement.1 = key) ∧
    (∀ key : StoreKey, key.decrement.2 = true → key.decrement.1.increment.2 = true →
      key.decrement.1.increment.1 = key) := by
  refine ⟨fun _ => StoreKey.increment_covBy, fun _ => StoreKey.increment_eq_false_iff,
    fun _ => StoreKey.increment_fst_of_false, fun _ => StoreKey.decrement_eq_false_iff,
    fun _ => StoreKey.isGreatest_decrement, ?_, ?_⟩
  · -- Both are the key just below the increment.
    intro key incremented decremented
    exact (StoreKey.decrement_covBy decremented).unique_left (StoreKey.increment_covBy incremented)
  · -- Both are the key just above the decrement.
    intro key decremented incremented
    exact (StoreKey.increment_covBy incremented).unique_right (StoreKey.decrement_covBy decremented)

/-! ## The operations of `key_range_t` -/

/-- `key_range_t::is_empty`: a bounded range whose left key is its right key. -/
def KeyRange.isEmpty (range : KeyRange) : Bool :=
  match range.right with
  | .unbounded => false
  | .bounded key => decide (range.left = key)

/-- `key_range_t::overlaps`. -/
def KeyRange.overlaps (range other : KeyRange) : Bool :=
  decide (RightBound.bounded range.left < other.right) &&
    decide (RightBound.bounded other.left < range.right) && !range.isEmpty && !other.isEmpty

/-- `key_range_t::intersection`. -/
def KeyRange.intersection (range other : KeyRange) : KeyRange :=
  if !range.overlaps other then KeyRange.empty
  else ⟨if range.left < other.left then other.left else range.left,
    if range.right > other.right then other.right else range.right⟩

/-- `key_range_t::is_superset`. -/
def KeyRange.isSuperset (range other : KeyRange) : Bool :=
  if other.isEmpty then true
  else if range.left > other.left then false
  else if range.right < other.right then false
  else true

/-- `key_range_t::universe()`: every key. -/
def KeyRange.universe : KeyRange := KeyRange.make .none StoreKey.min .none StoreKey.min

/-- The `rassert` of the constructor: the right bound is not below the left key. -/
def KeyRange.WellFormed (range : KeyRange) : Prop :=
  RightBound.bounded range.left ≤ range.right

/-- The keys a range contains. -/
def KeyRange.keys (range : KeyRange) : Set StoreKey := {key | range.containsKey key = true}

theorem KeyRange.containsKey_iff {range : KeyRange} {key : StoreKey} :
    range.containsKey key = true ↔ range.left ≤ key ∧ RightBound.bounded key < range.right := by
  rcases range with ⟨left, _ | right⟩
  · simp [KeyRange.containsKey, StoreKey.le_iff_sizedStrcmp]
  · simp [KeyRange.containsKey, StoreKey.le_iff_sizedStrcmp, StoreKey.lt_iff_sizedStrcmp]

theorem KeyRange.mem_keys {range : KeyRange} {key : StoreKey} :
    key ∈ range.keys ↔ range.left ≤ key ∧ RightBound.bounded key < range.right :=
  KeyRange.containsKey_iff

theorem KeyRange.wellFormed_empty : KeyRange.empty.WellFormed := le_rfl

/-- A well-formed range is empty exactly when its right bound is its left key. -/
theorem KeyRange.isEmpty_eq_false_iff {range : KeyRange} (wellFormed : range.WellFormed) :
    range.isEmpty = false ↔ RightBound.bounded range.left < range.right := by
  rcases range with ⟨left, _ | right⟩
  · simp [KeyRange.isEmpty]
  · have : left ≤ right := RightBound.bounded_le_bounded.mp wellFormed
    simp only [KeyRange.isEmpty, decide_eq_false_iff_not, RightBound.bounded_lt_bounded]
    exact ⟨fun differ => lt_of_le_of_ne this differ, ne_of_lt⟩

/-- A well-formed range that is not empty holds its left key. -/
theorem KeyRange.left_mem_keys {range : KeyRange} (wellFormed : range.WellFormed)
    (nonempty : range.isEmpty = false) : range.left ∈ range.keys :=
  KeyRange.mem_keys.mpr ⟨le_rfl, (KeyRange.isEmpty_eq_false_iff wellFormed).mp nonempty⟩

/-- A well-formed empty range holds no key. -/
theorem KeyRange.keys_eq_empty {range : KeyRange} (wellFormed : range.WellFormed)
    (empty : range.isEmpty = true) : range.keys = ∅ := by
  ext key
  have notBelow : ¬RightBound.bounded range.left < range.right := by
    intro below
    rw [(KeyRange.isEmpty_eq_false_iff wellFormed).mpr below] at empty
    cases empty
  simp only [KeyRange.mem_keys, Set.mem_empty_iff_false, iff_false, not_and]
  intro leftLe keyBelow
  exact notBelow (lt_of_le_of_lt (RightBound.bounded_le_bounded.mpr leftLe) keyBelow)

section Intersection

variable {range other : KeyRange}

theorem KeyRange.intersection_of_overlaps (overlapping : range.overlaps other = true) :
    range.intersection other = ⟨max range.left other.left, min range.right other.right⟩ := by
  simp only [KeyRange.intersection, overlapping, Bool.not_true, Bool.false_eq_true, if_false,
    gt_iff_lt, KeyRange.mk.injEq]
  exact ⟨(max_def_lt _ _).symm, (min_def_lt' _ _).symm⟩

/-- A range that holds a key is well formed and not empty. -/
theorem KeyRange.wellFormed_of_mem_keys {key : StoreKey} (member : key ∈ range.keys) :
    range.WellFormed := by
  obtain ⟨leftLe, below⟩ := KeyRange.mem_keys.mp member
  exact le_of_lt (lt_of_le_of_lt (RightBound.bounded_le_bounded.mpr leftLe) below)

theorem KeyRange.isEmpty_eq_false_of_mem {key : StoreKey} (member : key ∈ range.keys) :
    range.isEmpty = false := by
  obtain ⟨leftLe, below⟩ := KeyRange.mem_keys.mp member
  exact (KeyRange.isEmpty_eq_false_iff (KeyRange.wellFormed_of_mem_keys member)).mpr
    (lt_of_le_of_lt (RightBound.bounded_le_bounded.mpr leftLe) below)

/-- A range that holds a key holds its left key. -/
theorem KeyRange.left_mem_keys_of_nonempty (nonempty : range.keys.Nonempty) :
    range.left ∈ range.keys := by
  obtain ⟨key, member⟩ := nonempty
  exact KeyRange.left_mem_keys (KeyRange.wellFormed_of_mem_keys member)
    (KeyRange.isEmpty_eq_false_of_mem member)

/-- Ranges that share a key overlap. -/
theorem KeyRange.overlaps_of_mem {key : StoreKey} (inRange : key ∈ range.keys)
    (inOther : key ∈ other.keys) :
    range.overlaps other = true := by
  obtain ⟨leftLe, below⟩ := KeyRange.mem_keys.mp inRange
  obtain ⟨leftLe', below'⟩ := KeyRange.mem_keys.mp inOther
  simp only [KeyRange.overlaps, KeyRange.isEmpty_eq_false_of_mem inRange,
    KeyRange.isEmpty_eq_false_of_mem inOther, Bool.not_false, Bool.and_true, Bool.and_eq_true,
    decide_eq_true_eq]
  exact ⟨lt_of_le_of_lt (RightBound.bounded_le_bounded.mpr leftLe) below',
    lt_of_le_of_lt (RightBound.bounded_le_bounded.mpr leftLe') below⟩

/-- The intersection holds the common keys, of any two ranges. -/
theorem KeyRange.mem_keys_intersection {key : StoreKey} :
    key ∈ (range.intersection other).keys ↔ key ∈ range.keys ∧ key ∈ other.keys := by
  by_cases overlapping : range.overlaps other = true
  · rw [KeyRange.intersection_of_overlaps overlapping]
    simp only [KeyRange.mem_keys, max_le_iff, lt_min_iff]
    tauto
  · -- Ranges that do not overlap share no key.
    have empty : range.intersection other = KeyRange.empty := by
      simp [KeyRange.intersection, overlapping]
    rw [empty, KeyRange.keys_eq_empty KeyRange.wellFormed_empty rfl]
    exact ⟨False.elim, fun both => overlapping (KeyRange.overlaps_of_mem both.1 both.2)⟩

/-- **The intersection holds the common keys.** -/
theorem KeyRange.keys_intersection : (range.intersection other).keys = range.keys ∩ other.keys :=
  Set.ext fun _ => KeyRange.mem_keys_intersection

theorem KeyRange.wellFormed_intersection (wellFormed : range.WellFormed)
    (wellFormed' : other.WellFormed) : (range.intersection other).WellFormed := by
  by_cases overlapping : range.overlaps other = true
  · rw [KeyRange.intersection_of_overlaps overlapping]
    simp only [KeyRange.overlaps, Bool.and_eq_true, decide_eq_true_eq,
      Bool.not_eq_true'] at overlapping
    obtain ⟨⟨⟨leftBelow, leftBelow'⟩, nonempty⟩, nonempty'⟩ := overlapping
    have below := (KeyRange.isEmpty_eq_false_iff wellFormed).mp nonempty
    have below' := (KeyRange.isEmpty_eq_false_iff wellFormed').mp nonempty'
    apply le_of_lt
    rcases le_total range.left other.left with order | order
    · rw [max_eq_right order]
      exact lt_min leftBelow' below'
    · rw [max_eq_left order]
      exact lt_min below leftBelow
  · simp only [KeyRange.intersection, overlapping, Bool.not_false, if_true]
    exact KeyRange.wellFormed_empty

end Intersection

section SetLaws

variable {range other : KeyRange}

/-- Well-formed ranges overlap exactly when they share a key. -/
theorem KeyRange.overlaps_iff (wellFormed : range.WellFormed) (wellFormed' : other.WellFormed) :
    range.overlaps other = true ↔ ∃ key, key ∈ range.keys ∧ key ∈ other.keys := by
  constructor
  · intro overlapping
    simp only [KeyRange.overlaps, Bool.and_eq_true, decide_eq_true_eq,
      Bool.not_eq_true'] at overlapping
    obtain ⟨⟨⟨leftBelow, leftBelow'⟩, nonempty⟩, nonempty'⟩ := overlapping
    have below := (KeyRange.isEmpty_eq_false_iff wellFormed).mp nonempty
    have below' := (KeyRange.isEmpty_eq_false_iff wellFormed').mp nonempty'
    -- The greater left key lies in both.
    refine ⟨max range.left other.left, KeyRange.mem_keys.mpr ⟨le_max_left _ _, ?_⟩,
      KeyRange.mem_keys.mpr ⟨le_max_right _ _, ?_⟩⟩
    · rcases le_total range.left other.left with order | order
      · rwa [max_eq_right order]
      · rwa [max_eq_left order]
    · rcases le_total range.left other.left with order | order
      · rwa [max_eq_right order]
      · rwa [max_eq_left order]
  · rintro ⟨key, inRange, inOther⟩
    exact KeyRange.overlaps_of_mem inRange inOther

/-- A well-formed range is empty exactly when it holds no key. -/
theorem KeyRange.isEmpty_iff (wellFormed : range.WellFormed) :
    range.isEmpty = true ↔ range.keys = ∅ := by
  constructor
  · exact KeyRange.keys_eq_empty wellFormed
  · intro noKeys
    by_contra nonempty
    have member := KeyRange.left_mem_keys wellFormed (by simpa using nonempty)
    rw [noKeys] at member
    exact member

/-- A range is a superset of a well-formed range exactly when it holds all its keys. -/
theorem KeyRange.isSuperset_iff (wellFormed' : other.WellFormed) :
    range.isSuperset other = true ↔ other.keys ⊆ range.keys := by
  unfold KeyRange.isSuperset
  by_cases empty : other.isEmpty = true
  · simp only [empty, if_true, true_iff, KeyRange.keys_eq_empty wellFormed' empty]
    exact Set.empty_subset _
  · have nonempty : other.isEmpty = false := by simpa using empty
    have leftMem := KeyRange.left_mem_keys wellFormed' nonempty
    rw [if_neg empty]
    constructor
    · intro bounds key member
      have leftLe : range.left ≤ other.left := by
        by_contra leftAbove
        rw [if_pos (not_le.mp leftAbove)] at bounds
        cases bounds
      have rightLe : other.right ≤ range.right := by
        by_contra rightBelow
        rw [if_neg (not_lt.mpr leftLe), if_pos (not_le.mp rightBelow)] at bounds
        cases bounds
      obtain ⟨keyAbove, below⟩ := KeyRange.mem_keys.mp member
      exact KeyRange.mem_keys.mpr ⟨le_trans leftLe keyAbove, lt_of_lt_of_le below rightLe⟩
    · intro subset
      obtain ⟨leftLe, leftBelow⟩ := KeyRange.mem_keys.mp (subset leftMem)
      -- A right bound below the other's would be a key of the other outside the range.
      have rightLe : ¬range.right < other.right := by
        intro rightBelow
        rcases rightEq : range.right with _ | bound
        · rw [rightEq] at rightBelow
          exact RightBound.not_unbounded_lt _ rightBelow
        · rw [rightEq] at rightBelow leftBelow
          have inOther : bound ∈ other.keys :=
            KeyRange.mem_keys.mpr
              ⟨le_of_lt (RightBound.bounded_lt_bounded.mp leftBelow), rightBelow⟩
          have := (KeyRange.mem_keys.mp (subset inOther)).2
          rw [rightEq] at this
          exact lt_irrefl _ this
      rw [if_neg (not_lt.mpr leftLe), if_neg rightLe]

end SetLaws

/-- **`key_range_t`'s constructor and set operations mean what they say**: the constructor
denotes the keys its bounds admit, the intersection the common keys, and over well-formed
ranges `overlaps`, `is_superset` and `is_empty` decide sharing a key, inclusion and holding
none. -/
theorem key_range_set_semantics :
    (∀ (lm : BoundT) (l : StoreKey) (rm : BoundT) (r key : StoreKey),
      (KeyRange.make lm l rm r).containsKey key = true ↔
        lm.admitsLeft l.contents key.contents ∧ rm.admitsRight r.contents key.contents) ∧
    (∀ (a b : KeyRange) (key : StoreKey), (a.intersection b).containsKey key = true ↔
        a.containsKey key = true ∧ b.containsKey key = true) ∧
    (∀ a b : KeyRange, a.WellFormed → b.WellFormed →
      (a.overlaps b = true ↔ ∃ key, a.containsKey key = true ∧ b.containsKey key = true)) ∧
    (∀ a b : KeyRange, b.WellFormed →
      (a.isSuperset b = true ↔ ∀ key, b.containsKey key = true → a.containsKey key = true)) ∧
    (∀ a : KeyRange, a.WellFormed → (a.isEmpty = true ↔ ∀ key, a.containsKey key = false)) := by
  refine ⟨KeyRange.containsKey_make, fun _ _ _ => KeyRange.mem_keys_intersection,
    fun _ _ => KeyRange.overlaps_iff, fun _ _ => KeyRange.isSuperset_iff, ?_⟩
  intro a wellFormed
  rw [KeyRange.isEmpty_iff wellFormed, Set.eq_empty_iff_forall_notMem]
  simp only [KeyRange.keys, Set.mem_ofPred_eq, Bool.not_eq_true]

/-- `["\x02", "\x01")`: a range whose right key lies below its left key, outside what the
constructor builds and what `is_empty` asserts. -/
def invertedRange : KeyRange := ⟨⟨[2], by decide⟩, .bounded ⟨[1], by decide⟩⟩

/-- An inverted range holds no key, yet `is_empty` says it is not empty and it overlaps the
universe. -/
theorem inverted_range_overlaps_universe :
    invertedRange.isEmpty = false ∧ invertedRange.overlaps KeyRange.universe = true ∧
      ∀ key, invertedRange.containsKey key = false := by
  refine ⟨by decide, by decide, fun key => ?_⟩
  rw [Bool.eq_false_iff]
  intro contains
  obtain ⟨leftLe, below⟩ := KeyRange.containsKey_iff.mp contains
  have inverted := RightBound.bounded_lt_bounded.mp
    (lt_of_le_of_lt (RightBound.bounded_le_bounded.mpr leftLe) below)
  exact absurd inverted (by decide)

end Btree
end RethinkDB
