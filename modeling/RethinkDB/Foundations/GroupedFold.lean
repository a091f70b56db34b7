import Mathlib

/-!
# Grouped folds

A grouped fold keeps one accumulator per key, in an association list with one pair per
key, and folds each group of elements into the accumulator of the group's key, starting a
key that is not there yet at a default value.  A step may decline its element; a key none
of whose elements was taken is dropped again.  Partial results, computed over any split of
the elements, are merged key by key by a combining function, either into a running result
(`mergeInto`) or all at once after gathering the partial results of every key
(`mergeAll`).

What a map records is stated against the keyed elements fed to it (`Represents`), given a
relation saying what one accumulator records about its elements (`Summarizes`).  Under
`SummaryLaws` every fold and merge keeps `Represents`, which does not depend on the order of
the elements, and two maps that represent the same elements hold at every key accumulators
that summarize the same elements (`Represents.agree`).
-/

namespace GroupedFold

variable {K α T ε : Type} [DecidableEq K]

/-! ## Maps with one pair per key -/

/-- The value at `key`. -/
def lookup (key : K) : List (K × T) → Option T
  | [] => none
  | (k, t) :: rest => if k = key then some t else lookup key rest

/-- The keys of a map, in order. -/
def keys (map : List (K × T)) : List K := map.map Prod.fst

/-- Insertion of a pair: nothing changes where the key is there; the flag says whether the
pair went in. -/
def insert (key : K) (t : T) (map : List (K × T)) : List (K × T) × Bool :=
  match lookup key map with
  | some _ => (map, false)
  | none => (map ++ [(key, t)], true)

/-- The value at `key` replaced, or the pair added where the key is not there. -/
def set (key : K) (t : T) : List (K × T) → List (K × T)
  | [] => [(key, t)]
  | (k, t') :: rest => if k = key then (k, t) :: rest else (k, t') :: set key t rest

/-- The pair of `key` removed. -/
def erase (key : K) : List (K × T) → List (K × T)
  | [] => []
  | (k, t) :: rest => if k = key then rest else (k, t) :: erase key rest

/-! ## Folding groups and merging results -/

/-- One group's elements folded into an accumulator; the flag is set once a step takes its
element. -/
def foldElements (step : α → T → Except ε (T × Bool)) : List α → T × Bool → Except ε (T × Bool)
  | [], state => pure state
  | a :: rest, (t, keep) => do
      let (t, took) ← step a t
      foldElements step rest (t, keep || took)

/-- A group folded into the accumulator of its key, which starts at `default` where the key is
new, and is dropped again where none of the group's elements was taken. -/
def foldGroup (default : T) (step : α → T → Except ε (T × Bool)) (map : List (K × T))
    (key : K) (elements : List α) : Except ε (List (K × T)) := do
  let (map, inserted) := insert key default map
  let (t, keep) ← foldElements step elements ((lookup key map).getD default, !inserted)
  let map := set key t map
  pure (if keep then map else erase key map)

/-- Every group folded in turn. -/
def foldGroups (default : T) (step : α → T → Except ε (T × Bool)) (map : List (K × T))
    (groups : List (K × List α)) : Except ε (List (K × T)) :=
  groups.foldlM (fun map group => foldGroup default step map group.1 group.2) map

/-- A partial result merged into a running one, key by key: a key new to the running result
starts at `default`. -/
def mergeInto {R : Type} (default : T) (combine : T → R → Except ε T) (map : List (K × T))
    (result : List (K × R)) : Except ε (List (K × T)) :=
  result.foldlM (fun map pair => do
      let map := (insert pair.1 default map).1
      let t ← combine ((lookup pair.1 map).getD default) pair.2
      pure (set pair.1 t map)) map

/-- One more partial result, appended to those gathered at each of its keys. -/
def gatherInto (vecs : List (K × List T)) (result : List (K × T)) : List (K × List T) :=
  result.foldl (fun vecs pair => set pair.1 ((lookup pair.1 vecs).getD [] ++ [pair.2]) vecs) vecs

/-- The partial results of every key, in the order of the results. -/
def gather (results : List (List (K × T))) : List (K × List T) :=
  results.foldl gatherInto []

/-- All partial results merged at once: each key's partial results, gathered in order, are
combined with a fresh accumulator. -/
def mergeAll (default : T) (combineAll : T → List T → Except ε T)
    (results : List (List (K × T))) : Except ε (List (K × T)) :=
  (gather results).foldlM (fun map pair => do
      let map := (insert pair.1 default map).1
      let t ← combineAll ((lookup pair.1 map).getD default) pair.2
      pure (set pair.1 t map)) []

/-- The elements of the groups, each with its group's key. -/
def rowsOf (groups : List (K × List α)) : List (K × α) :=
  groups.flatMap fun group => group.2.map fun a => (group.1, a)

/-- The elements at `key`, in order. -/
def rowsAt (key : K) (rows : List (K × α)) : List α :=
  rows.filterMap fun row => if row.1 = key then some row.2 else none

/-! ## Folds in `Except` -/

/-- A fold in `Except` whose every step, from a state that keeps an invariant of the elements
done so far, succeeds into one that keeps it with one more element, succeeds over the whole
list and keeps the invariant of all of it. -/
theorem foldlM_invariant {β γ : Type} {f : β → γ → Except ε β} (P : List γ → β → Prop)
    (xs : List γ) {acc : β} (start : P [] acc)
    (step : ∀ done x rest acc, done ++ x :: rest = xs → P done acc →
      ∃ out, f acc x = .ok out ∧ P (done ++ [x]) out) :
    ∃ out, xs.foldlM f acc = .ok out ∧ P xs out := by
  -- Generalized over the elements done before.
  suffices run : ∀ (todo done : List γ) (acc : β), done ++ todo = xs → P done acc →
      ∃ out, todo.foldlM f acc = .ok out ∧ P xs out from run xs [] acc rfl start
  intro todo
  induction todo with
  | nil =>
      intro done acc split kept
      exact ⟨acc, rfl, by simpa [← split] using kept⟩
  | cons x rest ih =>
      intro done acc split kept
      obtain ⟨next, stepped, kept'⟩ := step done x rest acc split kept
      obtain ⟨out, folded, final⟩ := ih (done ++ [x]) next (by simpa using split) kept'
      exact ⟨out, by simpa only [List.foldlM_cons, stepped, bind, Except.bind] using folded, final⟩

/-! ## The operations on maps -/

section Maps

variable {key k : K} {t : T}

@[simp] theorem lookup_nil : lookup key ([] : List (K × T)) = none := rfl

theorem lookup_cons (pair : K × T) (rest : List (K × T)) :
    lookup key (pair :: rest) = if pair.1 = key then some pair.2 else lookup key rest := rfl

omit [DecidableEq K] in
@[simp] theorem keys_nil : keys ([] : List (K × T)) = [] := rfl

omit [DecidableEq K] in
@[simp] theorem keys_cons (pair : K × T) (rest : List (K × T)) :
    keys (pair :: rest) = pair.1 :: keys rest := rfl

omit [DecidableEq K] in
@[simp] theorem keys_append (map map' : List (K × T)) : keys (map ++ map') = keys map ++ keys map' :=
  List.map_append ..

theorem lookup_append (map map' : List (K × T)) :
    lookup key (map ++ map') = (lookup key map).or (lookup key map') := by
  induction map with
  | nil => rfl
  | cons pair rest ih =>
      rw [List.cons_append, lookup_cons, lookup_cons, ih]
      split <;> rfl

theorem lookup_eq_none_iff {map : List (K × T)} : lookup key map = none ↔ key ∉ keys map := by
  induction map with
  | nil => simp
  | cons pair rest ih =>
      rw [lookup_cons, keys_cons, List.mem_cons]
      by_cases same : pair.1 = key
      · simp [same]
      · simp [same, ih, Ne.symm same]

theorem lookup_eq_some_of_mem {map : List (K × T)} (nodup : (keys map).Nodup)
    (member : (key, t) ∈ map) : lookup key map = some t := by
  induction map with
  | nil => cases member
  | cons pair rest ih =>
      rw [keys_cons, List.nodup_cons] at nodup
      rw [lookup_cons]
      rcases List.mem_cons.mp member with rfl | later
      · rw [if_pos rfl]
      · have differ : pair.1 ≠ key := fun same =>
          nodup.1 (same ▸ (List.mem_map_of_mem later : (key, t).1 ∈ rest.map Prod.fst))
        rw [if_neg differ, ih nodup.2 later]

theorem lookup_insert (map : List (K × T)) :
    lookup k (insert key t map).1 = (lookup k map).or (if k = key then some t else none) := by
  unfold insert
  cases found : lookup key map with
  | some t' =>
      by_cases same : k = key
      · subst same
        rw [found]
        rfl
      · simp [same]
  | none =>
      rw [lookup_append, lookup_cons]
      by_cases same : k = key
      · simp [same]
      · simp [same, Ne.symm same]

theorem keys_insert (map : List (K × T)) :
    keys (insert key t map).1 = if key ∈ keys map then keys map else keys map ++ [key] := by
  unfold insert
  cases found : lookup key map with
  | some t' =>
      have present : key ∈ keys map := by
        by_contra absent
        rw [← lookup_eq_none_iff] at absent
        rw [found] at absent
        cases absent
      rw [if_pos present]
  | none =>
      rw [if_neg (lookup_eq_none_iff.mp found)]
      simp

theorem nodup_insert {map : List (K × T)} (nodup : (keys map).Nodup) :
    (keys (insert key t map).1).Nodup := by
  rw [keys_insert]
  split
  · exact nodup
  · rename_i absent
    rw [← List.concat_eq_append]
    exact List.Nodup.concat absent nodup

theorem lookup_set (map : List (K × T)) :
    lookup k (set key t map) = if k = key then some t else lookup k map := by
  induction map with
  | nil =>
      rw [set, lookup_cons]
      by_cases same : k = key
      · simp [same]
      · simp [same, Ne.symm same]
  | cons pair rest ih =>
      unfold set
      by_cases atPair : pair.1 = key
      · rw [if_pos atPair, lookup_cons, lookup_cons]
        by_cases same : k = key
        · simp [same, atPair]
        · simp [same, atPair, Ne.symm same]
      · rw [if_neg atPair, lookup_cons, lookup_cons, ih]
        by_cases same : k = key
        · subst same
          simp [atPair]
        · simp [same]

theorem keys_set (map : List (K × T)) :
    keys (set key t map) = if key ∈ keys map then keys map else keys map ++ [key] := by
  induction map with
  | nil => rfl
  | cons pair rest ih =>
      unfold set
      by_cases atPair : pair.1 = key
      · rw [if_pos atPair, keys_cons, keys_cons, if_pos (List.mem_cons.mpr (.inl atPair.symm))]
      · rw [if_neg atPair, keys_cons, keys_cons, ih]
        by_cases present : key ∈ keys rest
        · simp [present]
        · simp [present, Ne.symm atPair]

theorem nodup_set {map : List (K × T)} (nodup : (keys map).Nodup) :
    (keys (set key t map)).Nodup := by
  rw [keys_set]
  split
  · exact nodup
  · rename_i absent
    rw [← List.concat_eq_append]
    exact List.Nodup.concat absent nodup

theorem keys_erase_sublist (map : List (K × T)) : (keys (erase key map)).Sublist (keys map) := by
  induction map with
  | nil => exact List.Sublist.slnil
  | cons pair rest ih =>
      unfold erase
      split
      · exact List.sublist_cons_self _ _
      · exact ih.cons_cons _

theorem lookup_erase {map : List (K × T)} (nodup : (keys map).Nodup) :
    lookup k (erase key map) = if k = key then none else lookup k map := by
  induction map with
  | nil => simp [erase]
  | cons pair rest ih =>
      rw [keys_cons, List.nodup_cons] at nodup
      unfold erase
      by_cases atPair : pair.1 = key
      · rw [if_pos atPair, lookup_cons]
        by_cases same : k = key
        · subst same
          rw [if_pos rfl, lookup_eq_none_iff]
          exact atPair ▸ nodup.1
        · rw [if_neg same, if_neg fun equal => same (equal.symm.trans atPair)]
      · rw [if_neg atPair, lookup_cons, lookup_cons, ih nodup.2]
        by_cases same : k = key
        · subst same
          simp [atPair]
        · simp [same]

theorem insert_of_lookup_some {map : List (K × T)} {found : T}
    (present : lookup key map = some found) : insert key t map = (map, false) := by
  rw [insert, present]

theorem insert_of_lookup_none {map : List (K × T)} (absent : lookup key map = none) :
    insert key t map = (map ++ [(key, t)], true) := by
  rw [insert, absent]

theorem lookup_insert_self (map : List (K × T)) :
    lookup key (insert key t map).1 = some ((lookup key map).getD t) := by
  rw [lookup_insert, if_pos rfl]
  cases lookup key map <;> rfl

end Maps

/-! ## Rows by key -/

section Rows

variable {key k : K}

@[simp] theorem rowsAt_nil : rowsAt key ([] : List (K × α)) = [] := rfl

@[simp] theorem rowsAt_append (rows rows' : List (K × α)) :
    rowsAt key (rows ++ rows') = rowsAt key rows ++ rowsAt key rows' :=
  List.filterMap_append

theorem rowsAt_pairs (elements : List α) :
    rowsAt k (elements.map fun a => (key, a)) = if key = k then elements else [] := by
  induction elements with
  | nil => split <;> rfl
  | cons a rest ih =>
      by_cases same : key = k
      · simp_all [rowsAt]
      · simp_all [rowsAt]

theorem rowsAt_perm {rows rows' : List (K × α)} (perm : rows.Perm rows') :
    (rowsAt key rows).Perm (rowsAt key rows') :=
  perm.filterMap _

theorem mem_of_mem_rowsAt {rows : List (K × α)} {a : α} (member : a ∈ rowsAt key rows) :
    (key, a) ∈ rows := by
  obtain ⟨row, inRows, found⟩ := List.mem_filterMap.mp member
  split at found
  · rename_i same
    cases found
    rw [← same]
    exact inRows
  · cases found

omit [DecidableEq K] in
theorem rowsOf_append (groups groups' : List (K × List α)) :
    rowsOf (groups ++ groups') = rowsOf groups ++ rowsOf groups' :=
  List.flatMap_append

omit [DecidableEq K] in
theorem rowsOf_cons (group : K × List α) (groups : List (K × List α)) :
    rowsOf (group :: groups) = (group.2.map fun a => (group.1, a)) ++ rowsOf groups := rfl

/-- The rows of one key, and all others. -/
theorem perm_rowsAt_append_filter (key : K) (rows : List (K × α)) :
    rows.Perm (((rowsAt key rows).map fun a => (key, a)) ++ rows.filter fun row => row.1 ≠ key) := by
  induction rows with
  | nil => rfl
  | cons row rest ih =>
      by_cases same : row.1 = key
      · have atKey : rowsAt key (row :: rest) = row.2 :: rowsAt key rest := by
          simp [rowsAt, same]
        rw [atKey, List.map_cons, List.filter_cons_of_neg (by simpa using same), List.cons_append]
        have restored : (key, row.2) = row := by rw [← same]
        rw [restored]
        exact ih.cons row
      · have atKey : rowsAt key (row :: rest) = rowsAt key rest := by
          simp [rowsAt, same]
        rw [atKey, List.filter_cons_of_pos (by simpa using same)]
        exact (ih.cons row).trans List.perm_middle.symm

theorem rowsAt_filter_ne (key : K) (rows : List (K × α)) :
    rowsAt k (rows.filter fun row => row.1 ≠ key) = if k = key then [] else rowsAt k rows := by
  induction rows with
  | nil => split <;> rfl
  | cons row rest ih =>
      by_cases atRow : row.1 = key
      · rw [List.filter_cons_of_neg (by simpa using atRow), ih]
        by_cases same : k = key
        · simp [same]
        · simp [rowsAt, same, atRow, Ne.symm same]
      · rw [List.filter_cons_of_pos (by simpa using atRow)]
        by_cases same : k = key
        · subst same
          simp [rowsAt, atRow]
        · simp only [rowsAt, List.filterMap_cons] at ih ⊢
          rw [ih, if_neg same, if_neg same]

end Rows

/-! ## What a map records -/

section Summaries

variable (Summarizes : List α → T → Prop) (counted : α → Prop)

/-- What the accumulator at a key, or its absence, records about the elements fed at that
key: no key where none was taken, and otherwise an accumulator that summarizes them. -/
def RepresentsAt : Option T → List α → Prop
  | none, elements => ∀ a ∈ elements, ¬counted a
  | some t, elements => (∃ a ∈ elements, counted a) ∧ Summarizes elements t

/-- A map records the keyed elements fed to it, key by key. -/
structure Represents (map : List (K × T)) (rows : List (K × α)) : Prop where
  nodup : (keys map).Nodup
  atKey : ∀ k, RepresentsAt Summarizes counted (lookup k map) (rowsAt k rows)

/-- The conditions on the summaries of one accumulator: they do not depend on the order of
the elements and ignore the elements not taken, and `default` summarizes nothing. -/
structure SummaryLaws (default : T) : Prop where
  perm : ∀ {l l' : List α} {t : T}, l.Perm l' → Summarizes l t → Summarizes l' t
  nil : Summarizes [] default
  skip : ∀ {l l' : List α} {t : T}, (∀ a ∈ l', ¬counted a) → Summarizes l t →
    Summarizes (l ++ l') t

/-- On admissible elements a step succeeds, says whether it took its element, and extends
the summary by it. -/
structure StepLaw (step : α → T → Except ε (T × Bool)) (admissible : α → Prop) : Prop where
  step : ∀ {l : List α} {a : α} {t : T}, admissible a → (∀ b ∈ l, admissible b) →
    Summarizes l t →
      ∃ t' took, step a t = .ok (t', took) ∧ (took = true ↔ counted a) ∧ Summarizes (l ++ [a]) t'

/-- On admissible elements combining an accumulator with a partial result, which summarizes
its elements as `SummarizesR` says, succeeds and summarizes all of them. -/
structure CombineLaw {R : Type} (SummarizesR : List α → R → Prop) (combine : T → R → Except ε T)
    (admissible : α → Prop) : Prop where
  combine : ∀ {l l' : List α} {t : T} {r : R}, (∀ b ∈ l, admissible b) →
    (∀ b ∈ l', admissible b) → Summarizes l t → SummarizesR l' r →
      ∃ t', combine t r = .ok t' ∧ Summarizes (l ++ l') t'

variable {Summarizes counted}
variable {default : T}

theorem SummaryLaws.default_of_uncounted (laws : SummaryLaws Summarizes counted default)
    {l : List α} (uncounted : ∀ a ∈ l, ¬counted a) : Summarizes l default := by
  simpa using laws.skip uncounted laws.nil

theorem representsAt_perm (laws : SummaryLaws Summarizes counted default) {value : Option T}
    {l l' : List α} (perm : l.Perm l') (represents : RepresentsAt Summarizes counted value l) :
    RepresentsAt Summarizes counted value l' := by
  cases value with
  | none => exact fun a member => represents a (perm.mem_iff.mpr member)
  | some t =>
      obtain ⟨⟨a, member, isCounted⟩, summary⟩ := represents
      exact ⟨⟨a, perm.mem_iff.mp member, isCounted⟩, laws.perm perm summary⟩

theorem representsAt_append_uncounted (laws : SummaryLaws Summarizes counted default)
    {value : Option T} {l l' : List α} (represents : RepresentsAt Summarizes counted value l)
    (uncounted : ∀ a ∈ l', ¬counted a) : RepresentsAt Summarizes counted value (l ++ l') := by
  cases value with
  | none =>
      intro a member
      rcases List.mem_append.mp member with early | late
      · exact represents a early
      · exact uncounted a late
  | some t =>
      obtain ⟨⟨a, member, isCounted⟩, summary⟩ := represents
      exact ⟨⟨a, List.mem_append_left _ member, isCounted⟩, laws.skip uncounted summary⟩

/-- The accumulator at a key, or the default where there is none, summarizes its elements. -/
theorem RepresentsAt.summarizes_getD (laws : SummaryLaws Summarizes counted default)
    {value : Option T} {l : List α} (represents : RepresentsAt Summarizes counted value l) :
    Summarizes l (value.getD default) := by
  cases value with
  | none => exact laws.default_of_uncounted represents
  | some t => exact represents.2

theorem Represents.perm (laws : SummaryLaws Summarizes counted default) {map : List (K × T)}
    {rows rows' : List (K × α)} (represents : Represents Summarizes counted map rows)
    (perm : rows.Perm rows') : Represents Summarizes counted map rows' where
  nodup := represents.nodup
  atKey k := representsAt_perm laws (rowsAt_perm perm) (represents.atKey k)

theorem represents_nil_iff {rows : List (K × α)} :
    Represents Summarizes counted ([] : List (K × T)) rows ↔ ∀ p ∈ rows, ¬counted p.2 := by
  constructor
  · intro represents p member
    exact represents.atKey p.1 p.2 (List.mem_filterMap.mpr ⟨p, member, by simp⟩)
  · intro uncounted
    exact ⟨List.nodup_nil, fun k a member => uncounted (k, a) (mem_of_mem_rowsAt member)⟩

/-- A map changed at one key only records rows changed at that key only, where the new
accumulator there records the new rows there. -/
theorem Represents.update {map map' : List (K × T)} {rows rows' : List (K × α)}
    (represents : Represents Summarizes counted map rows) (key : K) (nodup : (keys map').Nodup)
    (others : ∀ k ≠ key, lookup k map' = lookup k map)
    (othersRows : ∀ k ≠ key, rowsAt k rows' = rowsAt k rows)
    (here : RepresentsAt Summarizes counted (lookup key map') (rowsAt key rows')) :
    Represents Summarizes counted map' rows' where
  nodup := nodup
  atKey k := by
    by_cases same : k = key
    · rw [same]
      exact here
    · rw [others k same, othersRows k same]
      exact represents.atKey k

/-- Maps that record the same elements, in any order, hold at each key accumulators that
summarize the same elements, or neither holds the key. -/
theorem Represents.agree (laws : SummaryLaws Summarizes counted default) {map map' : List (K × T)}
    {rows rows' : List (K × α)} (represents : Represents Summarizes counted map rows)
    (represents' : Represents Summarizes counted map' rows') (perm : rows.Perm rows') (k : K) :
    (lookup k map).isSome = (lookup k map').isSome ∧
      ∀ t t', lookup k map = some t → lookup k map' = some t' →
        Summarizes (rowsAt k rows') t ∧ Summarizes (rowsAt k rows') t' := by
  have here := representsAt_perm laws (rowsAt_perm perm) (represents.atKey k)
  have here' := represents'.atKey k
  constructor
  · cases found : lookup k map with
    | none =>
        cases found' : lookup k map' with
        | none => rfl
        | some t' =>
            rw [found] at here
            rw [found'] at here'
            obtain ⟨⟨a, member, isCounted⟩, -⟩ := here'
            exact absurd isCounted (here a member)
    | some t =>
        cases found' : lookup k map' with
        | none =>
            rw [found] at here
            rw [found'] at here'
            obtain ⟨⟨a, member, isCounted⟩, -⟩ := here
            exact absurd isCounted (here' a member)
        | some t' => rfl
  · intro t t' found found'
    rw [found] at here
    rw [found'] at here'
    exact ⟨here.2, here'.2⟩

/-- Partial results that summarize the pieces of a split of the elements, up to elements
that were not taken. -/
def Pieces (Summarizes : List α → T → Prop) (counted : α → Prop) (l : List α) (ts : List T) :
    Prop :=
  ∃ pieces skipped : List (List α), l.Perm (pieces.flatten ++ skipped.flatten) ∧
    (∀ a ∈ skipped.flatten, ¬counted a) ∧ List.Forall₂ Summarizes pieces ts

omit [DecidableEq K] in
theorem Pieces.laws : SummaryLaws (Pieces Summarizes counted) counted ([] : List T) where
  perm := fun perm ⟨pieces, skipped, split, uncounted, summaries⟩ =>
    ⟨pieces, skipped, perm.symm.trans split, uncounted, summaries⟩
  nil := ⟨[], [], List.Perm.nil, by simp, List.Forall₂.nil⟩
  skip := fun {l l' ts} uncounted' ⟨pieces, skipped, split, uncounted, summaries⟩ => by
    refine ⟨pieces, skipped ++ [l'], ?_, ?_, summaries⟩
    · rw [List.flatten_append, List.flatten_singleton, ← List.append_assoc]
      exact split.append_right l'
    · intro a member
      rw [List.flatten_append, List.flatten_singleton] at member
      rcases List.mem_append.mp member with early | late
      · exact uncounted a early
      · exact uncounted' a late

omit [DecidableEq K] in
theorem Pieces.snoc {l l' : List α} {ts : List T} {t : T} (pieces : Pieces Summarizes counted l ts)
    (summary : Summarizes l' t) : Pieces Summarizes counted (l ++ l') (ts ++ [t]) := by
  obtain ⟨pieces, skipped, split, uncounted, summaries⟩ := pieces
  refine ⟨pieces ++ [l'], skipped, ?_, uncounted, List.rel_append summaries (.cons summary .nil)⟩
  rw [List.flatten_append, List.flatten_singleton, List.append_assoc]
  calc List.Perm (l ++ l') (pieces.flatten ++ skipped.flatten ++ l') := split.append_right l'
    _ = pieces.flatten ++ (skipped.flatten ++ l') := List.append_assoc ..
    List.Perm _ (pieces.flatten ++ (l' ++ skipped.flatten)) :=
      List.perm_append_comm.append_left _

end Summaries

/-! ## Folds and merges keep what a map records -/

section Runs

variable {Summarizes : List α → T → Prop} {counted : α → Prop} {default : T}
  {step : α → T → Except ε (T × Bool)} {admissible : α → Prop}

theorem foldElements_cons (a : α) (rest : List α) (t : T) (keep : Bool) :
    foldElements step (a :: rest) (t, keep) =
      (step a t).bind fun stepped => foldElements step rest (stepped.1, keep || stepped.2) := by
  simp only [foldElements, bind]

/-- The loop over a group's elements extends the summary by all of them, and sets its flag
where it was set or an element was taken. -/
theorem foldElements_spec (stepLaw : StepLaw Summarizes counted step admissible)
    (elements : List α) :
    ∀ {l : List α} {t : T} (keep : Bool), (∀ b ∈ l, admissible b) →
      (∀ a ∈ elements, admissible a) → Summarizes l t →
      ∃ t' keep', foldElements step elements (t, keep) = .ok (t', keep') ∧
        (keep' = true ↔ keep = true ∨ ∃ a ∈ elements, counted a) ∧ Summarizes (l ++ elements) t' := by
  induction elements with
  | nil =>
      intro l t keep _ _ summary
      exact ⟨t, keep, rfl, by simp, by simpa using summary⟩
  | cons a rest ih =>
      intro l t keep lOk elementsOk summary
      have aOk := elementsOk a (List.mem_cons_self ..)
      obtain ⟨t₁, took, stepped, tookIff, summary₁⟩ := stepLaw.step aOk lOk summary
      have lOk₁ : ∀ b ∈ l ++ [a], admissible b := by
        intro b member
        rcases List.mem_append.mp member with early | late
        · exact lOk b early
        · rw [List.mem_singleton.mp late]
          exact aOk
      obtain ⟨t', keep', folded, keepIff, summary'⟩ := ih (keep || took) lOk₁
        (fun b member => elementsOk b (List.mem_cons_of_mem _ member)) summary₁
      refine ⟨t', keep', ?_, ?_, by simpa using summary'⟩
      · rw [foldElements_cons, stepped]
        exact folded
      · rw [keepIff, Bool.or_eq_true, tookIff, or_assoc]
        simp

theorem insert_snd (key : K) (t : T) (map : List (K × T)) :
    (insert key t map).2 = (lookup key map).isNone := by
  unfold insert
  cases lookup key map <;> rfl

/-- `foldGroup` once the loop over the group is known. -/
theorem foldGroup_eq {map : List (K × T)} {key : K} {elements : List α} {t : T} {keep : Bool}
    (folded : foldElements step elements ((lookup key map).getD default, (lookup key map).isSome) =
      .ok (t, keep)) :
    foldGroup default step map key elements =
      .ok (if keep then set key t (insert key default map).1
        else erase key (set key t (insert key default map).1)) := by
  have start : ((lookup key (insert key default map).1).getD default, !(insert key default map).2) =
      ((lookup key map).getD default, (lookup key map).isSome) := by
    rw [lookup_insert_self, insert_snd, Option.getD_some, Option.not_isNone]
  unfold foldGroup
  simp only [bind, Except.bind, start, folded, pure, Except.pure]

/-- **One group**: folding a group into a map records its elements at its key. -/
theorem foldGroup_represents (laws : SummaryLaws Summarizes counted default)
    (stepLaw : StepLaw Summarizes counted step admissible) {map : List (K × T)}
    {rows : List (K × α)} (represents : Represents Summarizes counted map rows)
    (rowsOk : ∀ p ∈ rows, admissible p.2) (key : K) (elements : List α)
    (elementsOk : ∀ a ∈ elements, admissible a) :
    ∃ map', foldGroup default step map key elements = .ok map' ∧
      Represents Summarizes counted map' (rows ++ elements.map fun a => (key, a)) := by
  have here := represents.atKey key
  have othersRows : ∀ k ≠ key,
      rowsAt k (rows ++ elements.map fun a => (key, a)) = rowsAt k rows := fun k differ => by
    rw [rowsAt_append, rowsAt_pairs, if_neg (Ne.symm differ), List.append_nil]
  have hereRows : rowsAt key (rows ++ elements.map fun a => (key, a)) = rowsAt key rows ++ elements := by
    rw [rowsAt_append, rowsAt_pairs, if_pos rfl]
  obtain ⟨t', keep', folded, keepIff, summary⟩ := foldElements_spec stepLaw elements
    (lookup key map).isSome (fun b member => rowsOk _ (mem_of_mem_rowsAt member)) elementsOk
    (here.summarizes_getD laws)
  -- The accumulator after the loop, before the key may go again.
  have nodup₁ : (keys (set key t' (insert key default map).1)).Nodup :=
    nodup_set (nodup_insert represents.nodup)
  have others₁ : ∀ k ≠ key, lookup k (set key t' (insert key default map).1) = lookup k map :=
    fun k differ => by rw [lookup_set, if_neg differ, lookup_insert, if_neg differ, Option.or_none]
  rw [foldGroup_eq folded]
  cases keep' with
  | true =>
      refine ⟨_, by rw [if_pos rfl], represents.update key nodup₁ others₁ othersRows ?_⟩
      rw [lookup_set, if_pos rfl, hereRows]
      refine ⟨?_, summary⟩
      -- Something was taken before, or in this group.
      rcases keepIff.mp rfl with present | ⟨a, member, isCounted⟩
      · cases found : lookup key map with
        | none => simp [found] at present
        | some t₀ =>
            rw [found] at here
            obtain ⟨a, member, isCounted⟩ := here.1
            exact ⟨a, List.mem_append_left _ member, isCounted⟩
      · exact ⟨a, List.mem_append_right _ member, isCounted⟩
  | false =>
      have absent : lookup key map = none := by
        cases found : lookup key map with
        | none => rfl
        | some t₀ => simp [found] at keepIff
      refine ⟨_, by rw [if_neg Bool.false_ne_true],
        represents.update key (nodup₁.sublist (keys_erase_sublist _)) ?_ othersRows ?_⟩
      · intro k differ
        rw [lookup_erase nodup₁, if_neg differ, others₁ k differ]
      · rw [lookup_erase nodup₁, if_pos rfl, hereRows]
        rw [absent] at here
        intro a member
        rcases List.mem_append.mp member with early | late
        · exact here a early
        · exact fun isCounted => by simpa using keepIff.mpr (.inr ⟨a, late, isCounted⟩)

/-- **Every group in turn.** -/
theorem foldGroups_represents (laws : SummaryLaws Summarizes counted default)
    (stepLaw : StepLaw Summarizes counted step admissible) (groups : List (K × List α))
    {map : List (K × T)} {rows : List (K × α)} (represents : Represents Summarizes counted map rows)
    (rowsOk : ∀ p ∈ rows ++ rowsOf groups, admissible p.2) :
    ∃ map', foldGroups default step map groups = .ok map' ∧
      Represents Summarizes counted map' (rows ++ rowsOf groups) := by
  refine foldlM_invariant (fun done map => Represents Summarizes counted map (rows ++ rowsOf done))
    groups (by simpa [rowsOf] using represents) ?_
  intro done group rest map split representsDone
  -- The rows so far and the group's rows are all among the rows of the groups.
  have within : ∀ p ∈ rows ++ rowsOf done ++ group.2.map (fun a => (group.1, a)), admissible p.2 :=
    fun p member => rowsOk p (by
      rw [← split, rowsOf_append, rowsOf_cons]
      simp only [List.mem_append] at member ⊢
      tauto)
  obtain ⟨map', folded, represents'⟩ := foldGroup_represents laws stepLaw representsDone
    (fun p member => within p (List.mem_append_left _ member)) group.1 group.2
    fun a member => within (group.1, a) (List.mem_append_right _ (List.mem_map_of_mem member))
  exact ⟨map', folded, by simpa [rowsOf_append, rowsOf_cons, rowsOf] using represents'⟩

theorem mergeInto_cons {R : Type} (combine : T → R → Except ε T) (map : List (K × T))
    (pair : K × R) (rest : List (K × R)) :
    mergeInto default combine map (pair :: rest) =
      (combine ((lookup pair.1 map).getD default) pair.2).bind fun t =>
        mergeInto default combine (set pair.1 t (insert pair.1 default map).1) rest := by
  simp only [mergeInto, List.foldlM_cons, bind, lookup_insert_self, Option.getD_some]
  cases combine ((lookup pair.1 map).getD default) pair.2 <;> rfl

/-- **Merging a partial result** into a running one records the elements of both. -/
theorem mergeInto_represents {R : Type} {SummarizesR : List α → R → Prop}
    {combine : T → R → Except ε T} (laws : SummaryLaws Summarizes counted default)
    (combineLaw : CombineLaw Summarizes SummarizesR combine admissible) (result : List (K × R)) :
    ∀ {map : List (K × T)} {rows resultRows : List (K × α)},
      Represents Summarizes counted map rows → Represents SummarizesR counted result resultRows →
      (∀ p ∈ rows, admissible p.2) → (∀ p ∈ resultRows, admissible p.2) →
      ∃ map', mergeInto default combine map result = .ok map' ∧
        Represents Summarizes counted map' (rows ++ resultRows) := by
  induction result with
  | nil =>
      intro map rows resultRows represents representsR _ _
      have uncounted := represents_nil_iff.mp representsR
      refine ⟨map, rfl, represents.nodup, fun k => ?_⟩
      rw [rowsAt_append]
      exact representsAt_append_uncounted laws (represents.atKey k) fun a member =>
        uncounted (k, a) (mem_of_mem_rowsAt member)
  | cons pair rest ih =>
      intro map rows resultRows represents representsR rowsOk resultOk
      have fresh : pair.1 ∉ keys rest ∧ (keys rest).Nodup := List.nodup_cons.mp representsR.nodup
      have hereR := representsR.atKey pair.1
      rw [lookup_cons, if_pos rfl] at hereR
      -- The result's rows at the pair's key go in now, the others with the rest of the pairs.
      have representsRest :
          Represents SummarizesR counted rest (resultRows.filter fun row => row.1 ≠ pair.1) := by
        refine ⟨fresh.2, fun k => ?_⟩
        rw [rowsAt_filter_ne]
        by_cases same : k = pair.1
        · rw [if_pos same, same, lookup_eq_none_iff.mpr fresh.1]
          intro a member
          cases member
        · have there := representsR.atKey k
          rw [lookup_cons, if_neg (Ne.symm same)] at there
          rw [if_neg same]
          exact there
      have resultAtOk : ∀ b ∈ rowsAt pair.1 resultRows, admissible b := fun b member =>
        resultOk _ (mem_of_mem_rowsAt member)
      obtain ⟨t, combined, summary⟩ := combineLaw.combine
        (fun b member => rowsOk _ (mem_of_mem_rowsAt member)) resultAtOk
        ((represents.atKey pair.1).summarizes_getD laws) hereR.2
      have represents₁ : Represents Summarizes counted (set pair.1 t (insert pair.1 default map).1)
          (rows ++ (rowsAt pair.1 resultRows).map fun a => (pair.1, a)) := by
        refine represents.update pair.1 (nodup_set (nodup_insert represents.nodup))
          (fun k differ => ?_) (fun k differ => ?_) ?_
        · rw [lookup_set, if_neg differ, lookup_insert, if_neg differ, Option.or_none]
        · rw [rowsAt_append, rowsAt_pairs, if_neg (Ne.symm differ), List.append_nil]
        · rw [lookup_set, if_pos rfl, rowsAt_append, rowsAt_pairs, if_pos rfl]
          obtain ⟨a, member, isCounted⟩ := hereR.1
          exact ⟨⟨a, List.mem_append_right _ member, isCounted⟩, summary⟩
      have rowsOk₁ : ∀ p ∈ rows ++ (rowsAt pair.1 resultRows).map fun a => (pair.1, a),
          admissible p.2 := by
        intro p member
        rcases List.mem_append.mp member with early | late
        · exact rowsOk p early
        · obtain ⟨a, inRows, rfl⟩ := List.mem_map.mp late
          exact resultAtOk a inRows
      obtain ⟨map', merged, represents'⟩ := ih represents₁ representsRest rowsOk₁
        fun p member => resultOk p (List.mem_filter.mp member).1
      refine ⟨map', ?_, represents'.perm laws ?_⟩
      · rw [mergeInto_cons, combined]
        exact merged
      · rw [List.append_assoc]
        exact (perm_rowsAt_append_filter pair.1 resultRows).symm.append_left rows

theorem gatherInto_cons (vecs : List (K × List T)) (pair : K × T) (rest : List (K × T)) :
    gatherInto vecs (pair :: rest) =
      gatherInto (set pair.1 ((lookup pair.1 vecs).getD [] ++ [pair.2]) vecs) rest := rfl

theorem lookup_gatherInto (result : List (K × T)) (nodup : (keys result).Nodup) (k : K) :
    ∀ vecs : List (K × List T), lookup k (gatherInto vecs result) =
      ((lookup k result).map fun t => (lookup k vecs).getD [] ++ [t]).or (lookup k vecs) := by
  induction result with
  | nil => intro vecs; rfl
  | cons pair rest ih =>
      intro vecs
      have fresh : pair.1 ∉ keys rest ∧ (keys rest).Nodup := List.nodup_cons.mp nodup
      rw [gatherInto_cons, ih fresh.2, lookup_set, lookup_cons]
      by_cases same : pair.1 = k
      · subst same
        rw [lookup_eq_none_iff.mpr fresh.1]
        simp
      · rw [if_neg (Ne.symm same), if_neg same]

theorem nodup_gatherInto {vecs : List (K × List T)} (nodup : (keys vecs).Nodup)
    (result : List (K × T)) : (keys (gatherInto vecs result)).Nodup := by
  induction result generalizing vecs with
  | nil => exact nodup
  | cons pair rest ih =>
      rw [gatherInto_cons]
      exact ih (nodup_set nodup)

/-- Gathering one more partial result records its elements with the pieces of its keys. -/
theorem gatherInto_represents {vecs : List (K × List T)} {rows : List (K × α)}
    {result : List (K × T)} {resultRows : List (K × α)}
    (represents : Represents (Pieces Summarizes counted) counted vecs rows)
    (representsR : Represents Summarizes counted result resultRows) :
    Represents (Pieces Summarizes counted) counted (gatherInto vecs result) (rows ++ resultRows) where
  nodup := nodup_gatherInto represents.nodup result
  atKey k := by
    have here := represents.atKey k
    have hereR := representsR.atKey k
    rw [lookup_gatherInto result representsR.nodup, rowsAt_append]
    cases found : lookup k result with
    | none =>
        rw [found] at hereR
        exact representsAt_append_uncounted Pieces.laws here hereR
    | some t =>
        rw [found] at hereR
        obtain ⟨a, member, isCounted⟩ := hereR.1
        exact ⟨⟨a, List.mem_append_right _ member, isCounted⟩,
          (here.summarizes_getD Pieces.laws).snoc hereR.2⟩

theorem gather_represents {results : List (List (K × T))} {shardRows : List (List (K × α))}
    (represents : List.Forall₂ (Represents Summarizes counted) results shardRows) :
    Represents (Pieces Summarizes counted) counted (gather results) shardRows.flatten := by
  -- Generalized over the results gathered before.
  suffices gathered : ∀ {vecs : List (K × List T)} {rows : List (K × α)},
      Represents (Pieces Summarizes counted) counted vecs rows →
      Represents (Pieces Summarizes counted) counted (results.foldl gatherInto vecs)
        (rows ++ shardRows.flatten) by
    have start : Represents (Pieces Summarizes counted) counted ([] : List (K × List T))
        ([] : List (K × α)) := represents_nil_iff.mpr fun _ member => nomatch member
    simpa [gather] using gathered start
  induction represents with
  | nil => intro vecs rows representsVecs; simpa using representsVecs
  | cons head _ ih =>
      intro vecs rows representsVecs
      rw [List.foldl_cons, List.flatten_cons, ← List.append_assoc]
      exact ih (gatherInto_represents representsVecs head)

/-- Combining an accumulator with each piece in turn summarizes them all. -/
theorem foldlM_combine_pieces (laws : SummaryLaws Summarizes counted default)
    {combine : T → T → Except ε T} (combineLaw : CombineLaw Summarizes Summarizes combine admissible) :
    CombineLaw Summarizes (Pieces Summarizes counted) (fun t ts => ts.foldlM combine t) admissible := by
  refine ⟨fun {l l' t ts} lOk l'Ok summary pieces => ?_⟩
  obtain ⟨pieces, skipped, split, uncounted, summaries⟩ := pieces
  have piecesOk : ∀ b ∈ pieces.flatten, admissible b := fun b member =>
    l'Ok b (split.mem_iff.mpr (List.mem_append_left _ member))
  -- Induction on the pieces, with the accumulator and the elements before them.
  have folded : ∀ {pieces : List (List α)} {ts : List T}, List.Forall₂ Summarizes pieces ts →
      ∀ {l : List α} {t : T}, (∀ b ∈ l, admissible b) → (∀ b ∈ pieces.flatten, admissible b) →
        Summarizes l t → ∃ t', ts.foldlM combine t = .ok t' ∧ Summarizes (l ++ pieces.flatten) t' := by
    intro pieces ts summaries
    induction summaries with
    | nil => intro l t _ _ summary; exact ⟨t, rfl, by simpa using summary⟩
    | @cons piece t₁ pieces ts summary₁ _ ih =>
        intro l t lOk piecesOk summary
        rw [List.flatten_cons] at piecesOk
        obtain ⟨t₂, combined, summary₂⟩ := combineLaw.combine lOk
          (fun b member => piecesOk b (List.mem_append_left _ member)) summary summary₁
        have lOk₂ : ∀ b ∈ l ++ piece, admissible b := by
          intro b member
          rcases List.mem_append.mp member with early | late
          · exact lOk b early
          · exact piecesOk b (List.mem_append_left _ late)
        obtain ⟨t', rest, summary'⟩ := ih lOk₂
          (fun b member => piecesOk b (List.mem_append_right _ member)) summary₂
        refine ⟨t', ?_, by simpa using summary'⟩
        rw [List.foldlM_cons, combined]
        exact rest
  obtain ⟨t', combined, summary'⟩ := folded summaries lOk piecesOk summary
  refine ⟨t', combined, laws.perm ?_ (laws.skip uncounted summary')⟩
  rw [List.append_assoc]
  exact split.symm.append_left l

theorem mergeAll_eq_mergeInto (combineAll : T → List T → Except ε T)
    (results : List (List (K × T))) :
    mergeAll default combineAll results = mergeInto default combineAll [] (gather results) := rfl

/-- **Merging all partial results at once** records the elements of all of them. -/
theorem mergeAll_represents (laws : SummaryLaws Summarizes counted default)
    {combine : T → T → Except ε T} (combineLaw : CombineLaw Summarizes Summarizes combine admissible)
    {results : List (List (K × T))} {shardRows : List (List (K × α))}
    (represents : List.Forall₂ (Represents Summarizes counted) results shardRows)
    (rowsOk : ∀ p ∈ shardRows.flatten, admissible p.2) :
    ∃ map, mergeAll default (fun t ts => ts.foldlM combine t) results = .ok map ∧
      Represents Summarizes counted map shardRows.flatten := by
  have start : Represents Summarizes counted ([] : List (K × T)) ([] : List (K × α)) :=
    represents_nil_iff.mpr fun _ member => nomatch member
  rw [mergeAll_eq_mergeInto]
  simpa using mergeInto_represents laws (foldlM_combine_pieces laws combineLaw) (gather results)
    start (gather_represents represents) (fun _ member => nomatch member) rowsOk

end Runs

end GroupedFold
