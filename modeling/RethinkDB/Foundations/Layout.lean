import Mathlib

/-!
# Parts laid out one after another

A container format writes its parts one after the other and finds part `i` again at the sum
of the sizes before it.  A table of fixed-width entries is the same layout with parts of
equal size, so entry `k` starts at `k * width`.  The lemmas here say where a part is found
in such a layout, and how a loop that reads every index below a count with an `Option`
result gives back the whole list.
-/

namespace Layout

variable {α β : Type}

/-- Where part `i` starts when parts of the given sizes follow one another. -/
def start (sizes : List Nat) (i : Nat) : Nat := (sizes.take i).sum

@[simp] theorem start_zero (sizes : List Nat) : start sizes 0 = 0 := by simp [start]

theorem start_cons_succ (size : Nat) (sizes : List Nat) (i : Nat) :
    start (size :: sizes) (i + 1) = size + start sizes i := by simp [start]

theorem start_le_sum (sizes : List Nat) (i : Nat) : start sizes i ≤ sizes.sum := by
  induction sizes generalizing i with
  | nil => simp [start]
  | cons size sizes ih =>
    cases i with
    | zero => simp
    | succ i =>
      rw [start_cons_succ, List.sum_cons]
      exact Nat.add_le_add_left (ih i) size

/-- Past a front of known length comes what follows it. -/
theorem drop_length_add_append (front back : List α) (k : Nat) :
    (front ++ back).drop (front.length + k) = back.drop k := by
  rw [List.drop_append, List.drop_eq_nil_of_le (by omega), Nat.add_sub_cancel_left, List.nil_append]

/-- Past the parts before part `i` come part `i` and the parts after it. -/
theorem drop_flatten_start (parts : List (List α)) (i : Nat) :
    parts.flatten.drop (start (parts.map List.length) i) = (parts.drop i).flatten := by
  induction parts generalizing i with
  | nil => simp
  | cons part parts ih =>
    cases i with
    | zero => simp
    | succ i =>
      rw [List.map_cons, start_cons_succ, List.flatten_cons, drop_length_add_append, ih]
      rfl

/-- In a table whose entries all take `width` items, entry `k` starts at `k * width`. -/
theorem drop_flatMap_of_width (f : β → List α) {width : Nat} (sized : ∀ b, (f b).length = width) :
    ∀ (entries : List β) (k : Nat), (entries.flatMap f).drop (k * width) = (entries.drop k).flatMap f
  | [], k => by simp
  | entry :: entries, 0 => by simp
  | entry :: entries, k + 1 => by
    have moved : (k + 1) * width = (f entry).length + k * width := by rw [sized, Nat.succ_mul, Nat.add_comm]
    rw [List.flatMap_cons, moved, drop_length_add_append, drop_flatMap_of_width f sized entries k,
      List.drop_succ_cons]

theorem length_flatMap_of_width (f : β → List α) {width : Nat} (sized : ∀ b, (f b).length = width)
    (entries : List β) : (entries.flatMap f).length = entries.length * width := by
  induction entries with
  | nil => simp
  | cons entry entries ih => rw [List.flatMap_cons, List.length_append, ih, sized, List.length_cons,
      Nat.succ_mul, Nat.add_comm]

/-! ## Offset tables -/

/-- The entries of a table of where every part after the first starts. -/
def tableEntries (sizes : List Nat) : List Nat :=
  (List.range (sizes.length - 1)).map fun j => start sizes (j + 1)

@[simp] theorem length_tableEntries (sizes : List Nat) :
    (tableEntries sizes).length = sizes.length - 1 := by
  simp [tableEntries]

theorem tableEntries_cons_cons (size next : Nat) (rest : List Nat) :
    tableEntries (size :: next :: rest) = size :: (tableEntries (next :: rest)).map (size + ·) := by
  simp only [tableEntries, List.length_cons, Nat.add_sub_cancel, List.range_succ_eq_map,
    List.map_cons, List.map_map]
  congr 1

/-- Entry `k` of the table says where part `k + 1` starts. -/
theorem drop_tableEntries {sizes : List Nat} {k : Nat} (lt : k < sizes.length - 1) :
    (tableEntries sizes).drop k = start sizes (k + 1) :: (tableEntries sizes).drop (k + 1) := by
  rw [List.drop_eq_getElem_cons (by simpa using lt)]
  simp [tableEntries]

/-- Every entry is at most the sizes of all parts but the last. -/
theorem le_of_mem_tableEntries {sizes : List Nat} {entry : Nat} (member : entry ∈ tableEntries sizes) :
    entry ≤ sizes.dropLast.sum := by
  simp only [tableEntries, List.mem_map, List.mem_range] at member
  obtain ⟨j, lt, rfl⟩ := member
  have front : sizes.take (j + 1) = sizes.dropLast.take (j + 1) := by
    rw [List.dropLast_eq_take, List.take_take, Nat.min_eq_left (by omega)]
  rw [start, front]
  exact start_le_sum sizes.dropLast (j + 1)

/-! ## Pairs laid out as two entries -/

/-- In a list that holds two entries for every item, the second entry of item `i` is at
`i * 2 + 1`. -/
theorem getElem?_flatMap_pair (f g : α → β) :
    ∀ (l : List α) (i : Nat), (l.flatMap fun a => [f a, g a])[i * 2 + 1]? = l[i]?.map g
  | [], i => by simp
  | a :: l, 0 => by simp
  | a :: l, i + 1 => by
    have moved : (i + 1) * 2 + 1 = (i * 2 + 1) + 2 := by omega
    rw [List.flatMap_cons, moved, List.getElem?_append_right (by simp), List.length_cons, List.length_cons,
      List.length_nil, Nat.add_sub_cancel, getElem?_flatMap_pair f g l i, List.getElem?_cons_succ]

/-- The sum of a list with two entries for every item. -/
theorem sum_flatMap_pair (f g : α → Nat) :
    ∀ l : List α, (l.flatMap fun a => [f a, g a]).sum = (l.map fun a => f a + g a).sum
  | [] => rfl
  | a :: l => by
    rw [List.flatMap_cons, List.sum_append, sum_flatMap_pair f g l, List.map_cons, List.sum_cons]
    simp

/-! ## Reading every index -/

/-- A loop that succeeds gives one result per item. -/
theorem length_of_mapM_eq_some {f : α → Option β} :
    ∀ {l : List α} {out : List β}, l.mapM f = some out → out.length = l.length
  | [], out, ran => by
    cases ran
    rfl
  | a :: l, out, ran => by
    rw [List.mapM_cons] at ran
    cases first : f a with
    | none => simp [first] at ran
    | some b =>
      cases rest : l.mapM f with
      | none => simp [first, rest] at ran
      | some bs =>
        simp only [first, rest, Option.bind_eq_bind, Option.bind_some, Option.pure_def,
          Option.some.injEq] at ran
        rw [← ran, List.length_cons, List.length_cons, length_of_mapM_eq_some rest]

/-- A loop over a list whose step on each item gives `g` of the item it is related to. -/
theorem mapM_of_forall₂ {f : α → Option β} {γ : Type} {g : γ → β} {l : List α} {l' : List γ}
    (related : List.Forall₂ (fun a c => f a = some (g c)) l l') : l.mapM f = some (l'.map g) := by
  induction related with
  | nil => rfl
  | cons first _ rest =>
    rw [List.mapM_cons, first, rest]
    rfl

/-- A loop over a list zipped with one entry per related item. -/
theorem mapM_zip_of_forall₂ {γ δ : Type} {f : α × δ → Option β} {h : γ → δ} {g : γ → β}
    {l : List α} {l' : List γ} (related : List.Forall₂ (fun a c => f (a, h c) = some (g c)) l l') :
    (l.zip (l'.map h)).mapM f = some (l'.map g) := by
  induction related with
  | nil => rfl
  | cons first _ rest =>
    rw [List.map_cons, List.zip_cons_cons, List.mapM_cons, first, rest]
    rfl

/-- A loop over the elements whose every step succeeds with `g` of the element. -/
theorem mapM_eq_some_map {f : α → Option β} {g : α → β} :
    ∀ {l : List α}, (∀ a ∈ l, f a = some (g a)) → l.mapM f = some (l.map g)
  | [], _ => rfl
  | a :: l, each => by
    rw [List.mapM_cons, each a List.mem_cons_self,
      mapM_eq_some_map fun b member => each b (List.mem_cons_of_mem a member)]
    rfl

/-- A loop over the first `n` indices of a list that finds each of its elements gives its
first `n` elements. -/
theorem mapM_range_eq_some_take (f : Nat → Option β) (l : List β)
    (each : ∀ i (lt : i < l.length), f i = some (l.get ⟨i, lt⟩)) :
    ∀ n, n ≤ l.length → (List.range n).mapM f = some (l.take n)
  | 0, _ => rfl
  | n + 1, le => by
    have lt : n < l.length := by omega
    rw [List.range_succ, List.mapM_append, mapM_range_eq_some_take f l each n (by omega),
      List.mapM_cons, each n lt, List.take_add_one, List.getElem?_eq_getElem lt]
    rfl

/-- A loop over the items of a list and their indices, from `k` on, whose step at every index
gives the entry of `out` there. -/
theorem mapM_zipIdx_eq_some (f : α × Nat → Option β) :
    ∀ (l : List α) (out : List β) (k : Nat), out.length = l.length →
      (∀ i (lt : i < l.length), f (l.get ⟨i, lt⟩, k + i) = out[i]?) → (l.zipIdx k).mapM f = some out
  | [], [], _, _, _ => rfl
  | a :: l, b :: out, k, lengths, each => by
    have first : f (a, k) = some b := by simpa using each 0 (by simp)
    have rest : (l.zipIdx (k + 1)).mapM f = some out := by
      refine mapM_zipIdx_eq_some f l out (k + 1) (by simpa using lengths) fun i lt => ?_
      have := each (i + 1) (by simpa using lt)
      rwa [show k + (i + 1) = k + 1 + i by omega] at this
    rw [List.zipIdx_cons, List.mapM_cons, first, rest]
    rfl

/-- A loop over the indices below a list's length that finds each of its elements gives back
the list. -/
theorem mapM_range_eq_some (f : Nat → Option β) (l : List β)
    (each : ∀ i (lt : i < l.length), f i = some (l.get ⟨i, lt⟩)) :
    (List.range l.length).mapM f = some l := by
  rw [mapM_range_eq_some_take f l each l.length (Nat.le_refl _), List.take_length]

end Layout
