import RethinkDB.Btree.Keys

/-!
# Distinct split points

`ensure_distinct` (clustering/administration/tables/split_points.cc) is meant to turn a
non-strictly increasing vector of split points into a strictly increasing one.  It pushes
each key forward with `store_key_t::increment` until it passes its predecessor.  A key that
cannot be pushed any further, because it already is `store_key_t::max()`, makes the loop walk
back and decrement equal predecessors, down to index 1 and never index 0, without rechecking
the indices it walked over.

Each `while` loop of the source runs here with fuel, and a run ends in `Except Halt`: a
failed `guarantee` or a loop that did not finish within its fuel.  Every inner loop keeps the
vector's length, changes no later key, and ends with its key above its predecessor
(`pushForward_spec`); a strictly increasing vector comes back unchanged
(`ensureDistinct_of_increasing`).  Keys piled at the maximal key, however, never get apart,
and a walk-back that reaches index 1 leaves two equal keys behind.
-/

namespace RethinkDB.Tables

open Btree

/-- Why a run stops without a result. -/
inductive Halt where
  /-- A `guarantee` of the source failed: the process crashes. -/
  | guaranteeFailed
  /-- A `while` loop did not finish within its fuel. -/
  | outOfFuel
  deriving DecidableEq, Repr

/-- `split_points->at(i)`.  Every index the loops read is below the size, so the default is
never used. -/
def keyAt (sp : List StoreKey) (i : Nat) : StoreKey := sp.getD i StoreKey.min

/-- The walk-back `while (j > 1 && sp[j] == sp[j-1]) { guarantee(sp[j-1].decrement()); --j; }`. -/
def walkBack (sp : List StoreKey) : Nat → Except Halt (List StoreKey)
  | j + 2 =>
    if keyAt sp (j + 2) = keyAt sp (j + 1) then
      let decremented := (keyAt sp (j + 1)).decrement
      if decremented.2 then walkBack (sp.set (j + 1) decremented.1) (j + 1)
      else .error .guaranteeFailed
    else .ok sp
  | _ => .ok sp

/-- The inner loop at index `i`, `while (sp[i] <= sp[i-1])`, with `fuel` rounds: push `sp[i]`
forward, and walk back when `increment` fails. -/
def pushForward (i : Nat) : Nat → List StoreKey → Except Halt (List StoreKey)
  | 0, _ => .error .outOfFuel
  | fuel + 1, sp =>
    if keyAt sp i ≤ keyAt sp (i - 1) then
      let incremented := (keyAt sp i).increment
      -- a failed `increment` still writes `store_key_t::max()` back
      let pushed := sp.set i incremented.1
      if incremented.2 then pushForward i fuel pushed
      else do
        let walked ← walkBack pushed i
        pushForward i fuel walked
    else .ok sp

/-- The indices `1, …, size - 1` that both loops of `ensure_distinct` run over. -/
def indices (sp : List StoreKey) : List Nat := List.range' 1 (sp.length - 1)

/-- `ensure_distinct`: first `guarantee(sp[i] >= sp[i-1])` at every index, then the inner loop
at every index in turn, each with `fuel` rounds. -/
def ensureDistinct (fuel : Nat) (sp : List StoreKey) : Except Halt (List StoreKey) :=
  if (indices sp).all fun i => keyAt sp (i - 1) ≤ keyAt sp i then
    (indices sp).foldlM (fun sp i => pushForward i fuel sp) sp
  else .error .guaranteeFailed

/-! ## Keys -/

-- the lemmas rewrite a finished loop into its continuation; unfolding the loops instead would
-- evaluate the 250-byte keys
theorem ok_bind {α β : Type} (a : α) (f : α → Except Halt β) : (Except.ok a).bind f = f a := rfl

theorem ok_bind' {α β : Type} (a : α) (f : α → Except Halt β) : (Except.ok a >>= f) = f a := rfl

theorem keyAt_set_ne {sp : List StoreKey} {i k : Nat} (other : i ≠ k) (key : StoreKey) :
    keyAt (sp.set i key) k = keyAt sp k := by
  simp [keyAt, List.getD_eq_getElem?_getD, List.getElem?_set_ne other]

/-! ## The walk-back -/

/-- The walk-back keeps the size and changes only the keys at the indices `1, …, j - 1`. -/
theorem walkBack_frame {sp sp' : List StoreKey} {j : Nat} (walked : walkBack sp j = .ok sp') :
    sp'.length = sp.length ∧ ∀ k, (k = 0 ∨ j ≤ k) → keyAt sp' k = keyAt sp k := by
  induction sp, j using walkBack.induct with
  | case1 sp j equal decremented succeeded ih =>
    rw [walkBack, if_pos equal] at walked
    simp only [decremented, succeeded, if_true] at walked
    obtain ⟨length, same⟩ := ih walked
    refine ⟨by rw [length, List.length_set], fun k outside => ?_⟩
    have notSet : j + 1 ≠ k := by omega
    rw [same k (by omega), keyAt_set_ne notSet]
  | case2 sp j equal decremented failed =>
    rw [walkBack, if_pos equal] at walked
    simp only [decremented, failed] at walked
    cases walked
  | case3 sp j unequal =>
    rw [walkBack, if_neg unequal] at walked
    cases walked
    exact ⟨rfl, fun _ _ => rfl⟩
  | case4 j sp small =>
    have stops : walkBack sp j = .ok sp := by
      match j with
      | 0 => rfl
      | 1 => rfl
      | j + 2 => exact (small j rfl).elim
    rw [stops] at walked
    cases walked
    exact ⟨rfl, fun _ _ => rfl⟩

/-! ## The inner loop -/

theorem pushForward_of_lt {sp : List StoreKey} {i : Nat} (fuel : Nat)
    (above : keyAt sp (i - 1) < keyAt sp i) : pushForward i (fuel + 1) sp = .ok sp := by
  rw [pushForward, if_neg (not_le.mpr above)]

theorem pushForward_of_increment {sp : List StoreKey} {i : Nat} (fuel : Nat)
    (notAbove : keyAt sp i ≤ keyAt sp (i - 1)) (succeeded : (keyAt sp i).increment.2 = true) :
    pushForward i (fuel + 1) sp = pushForward i fuel (sp.set i (keyAt sp i).increment.1) := by
  rw [pushForward, if_pos notAbove]
  simp only [succeeded, if_true]

theorem pushForward_of_max {sp : List StoreKey} {i : Nat} (fuel : Nat)
    (notAbove : keyAt sp i ≤ keyAt sp (i - 1)) (failed : (keyAt sp i).increment.2 = false) :
    pushForward i (fuel + 1) sp =
      (walkBack (sp.set i (keyAt sp i).increment.1) i).bind (pushForward i fuel) := by
  rw [pushForward, if_pos notAbove]
  simp only [failed, Bool.false_eq_true, if_false]
  rfl

/-- What one inner loop leaves behind, if it finishes: the same size, every later key as it
was, and the key at `i` above its predecessor. -/
theorem pushForward_spec {sp sp' : List StoreKey} {i fuel : Nat}
    (pushed : pushForward i fuel sp = .ok sp') :
    sp'.length = sp.length ∧ (∀ k, i < k → keyAt sp' k = keyAt sp k) ∧
      keyAt sp' (i - 1) < keyAt sp' i := by
  induction fuel generalizing sp with
  | zero => cases pushed
  | succ fuel ih =>
    by_cases notAbove : keyAt sp i ≤ keyAt sp (i - 1)
    · -- both branches recurse on the vector with the key at `i` written back
      have later : ∀ k, i < k → keyAt (sp.set i (keyAt sp i).increment.1) k = keyAt sp k :=
        fun k after => keyAt_set_ne (Nat.ne_of_lt after) _
      cases succeeded : (keyAt sp i).increment.2
      · rw [pushForward_of_max fuel notAbove succeeded] at pushed
        cases walked : walkBack (sp.set i (keyAt sp i).increment.1) i with
        | error halt => rw [walked] at pushed; cases pushed
        | ok walkedSp =>
          rw [walked] at pushed
          obtain ⟨walkedLength, walkedSame⟩ := walkBack_frame walked
          obtain ⟨length, same, lt⟩ := ih pushed
          refine ⟨by simp [length, walkedLength], fun k after => ?_, lt⟩
          rw [same k after, walkedSame k (Or.inr (Nat.le_of_lt after)), later k after]
      · rw [pushForward_of_increment fuel notAbove succeeded] at pushed
        obtain ⟨length, same, lt⟩ := ih pushed
        refine ⟨by simp [length], fun k after => ?_, lt⟩
        rw [same k after, later k after]
    · rw [pushForward_of_lt fuel (not_le.mp notAbove)] at pushed
      cases pushed
      exact ⟨rfl, fun _ _ => rfl, not_le.mp notAbove⟩

/-! ## The whole pass -/

theorem mem_indices {sp : List StoreKey} {i : Nat} : i ∈ indices sp ↔ 0 < i ∧ i < sp.length := by
  simp only [indices, List.mem_range'_1]
  omega

/-- The inner loops one after the other keep the size. -/
theorem foldlM_pushForward_length {fuel : Nat} :
    ∀ {is : List Nat} {sp sp' : List StoreKey},
      is.foldlM (fun sp i => pushForward i fuel sp) sp = .ok sp' → sp'.length = sp.length
  | [], _, _, finished => by cases finished; rfl
  | i :: is, sp, sp', finished => by
    rw [List.foldlM_cons] at finished
    cases pushed : pushForward i fuel sp with
    | error halt => rw [pushed] at finished; cases finished
    | ok pushedSp =>
      rw [pushed] at finished
      rw [foldlM_pushForward_length finished, (pushForward_spec pushed).1]

/-- `ensure_distinct` keeps the number of split points. -/
theorem ensureDistinct_length {fuel : Nat} {sp sp' : List StoreKey}
    (finished : ensureDistinct fuel sp = .ok sp') : sp'.length = sp.length := by
  unfold ensureDistinct at finished
  split at finished
  · exact foldlM_pushForward_length finished
  · cases finished

/-- The inner loop that runs last leaves its key above its predecessor. -/
theorem foldlM_pushForward_last {fuel i : Nat} {front : List Nat} {sp sp' : List StoreKey}
    (finished : (front ++ [i]).foldlM (fun sp i => pushForward i fuel sp) sp = .ok sp') :
    keyAt sp' (i - 1) < keyAt sp' i := by
  rw [List.foldlM_append] at finished
  cases before : front.foldlM (fun sp i => pushForward i fuel sp) sp with
  | error halt => rw [before] at finished; cases finished
  | ok frontSp =>
    rw [before, ok_bind', List.foldlM_cons] at finished
    cases pushed : pushForward i fuel frontSp with
    | error halt => rw [pushed] at finished; cases finished
    | ok pushedSp =>
      rw [pushed, ok_bind', List.foldlM_nil] at finished
      cases finished
      exact (pushForward_spec pushed).2.2

/-- Whatever `ensure_distinct` returns for two or more keys ends with a strictly increasing
pair. -/
theorem ensureDistinct_last_lt {fuel : Nat} {sp sp' : List StoreKey} (two : 2 ≤ sp.length)
    (finished : ensureDistinct fuel sp = .ok sp') :
    keyAt sp' (sp.length - 2) < keyAt sp' (sp.length - 1) := by
  have split : indices sp = List.range' 1 (sp.length - 2) ++ [sp.length - 1] := by
    have count : sp.length - 1 = sp.length - 2 + 1 := by omega
    rw [indices, count, List.range'_concat]
    congr 2
    omega
  unfold ensureDistinct at finished
  split at finished
  · rw [split] at finished
    have before : sp.length - 1 - 1 = sp.length - 2 := by omega
    rw [← before]
    exact foldlM_pushForward_last finished
  · cases finished

/-- The inner loops leave a strictly increasing vector as it is. -/
theorem foldlM_pushForward_of_increasing {fuel : Nat} {sp : List StoreKey}
    (increasing : ∀ i ∈ indices sp, keyAt sp (i - 1) < keyAt sp i) :
    ∀ {is : List Nat}, (∀ i ∈ is, i ∈ indices sp) →
      is.foldlM (fun sp i => pushForward i (fuel + 1) sp) sp = .ok sp
  | [], _ => rfl
  | i :: is, chosen => by
    rw [List.foldlM_cons,
      pushForward_of_lt fuel (increasing i (chosen i (List.mem_cons_self ..)))]
    exact foldlM_pushForward_of_increasing increasing
      (fun k member => chosen k (List.mem_cons_of_mem _ member))

/-- A vector that already is strictly increasing passes the initial `guarantee` and comes back
unchanged from one round of every inner loop. -/
theorem ensureDistinct_of_increasing {sp : List StoreKey} (fuel : Nat)
    (increasing : ∀ i ∈ indices sp, keyAt sp (i - 1) < keyAt sp i) :
    ensureDistinct (fuel + 1) sp = .ok sp := by
  have guaranteed : ((indices sp).all fun i => keyAt sp (i - 1) ≤ keyAt sp i) = true := by
    simp only [List.all_eq_true, decide_eq_true_eq]
    exact fun i member => le_of_lt (increasing i member)
  rw [ensureDistinct, if_pos guaranteed]
  exact foldlM_pushForward_of_increasing increasing (fun _ member => member)

/-! ## Keys piled at the maximal key -/

/-- The key before `store_key_t::max()`. -/
def maxPredecessor : StoreKey := StoreKey.max.decrement.1

theorem maxPredecessor_lt_max : maxPredecessor < StoreKey.max := by
  have ne : maxPredecessor ≠ StoreKey.max := by
    intro same
    have member : (254 : UInt8) ∈ maxPredecessor.contents := by
      rw [maxPredecessor, StoreKey.decrement_max.1]
      simp
    rw [same] at member
    simp [StoreKey.max] at member
  have le : maxPredecessor ≤ StoreKey.max := not_lt.mp (not_max_lt maxPredecessor.size_le)
  exact lt_of_le_of_ne le ne

/-- The inner loop at index 1 of a vector that starts with two copies of `store_key_t::max()`:
the increment fails, the walk-back stops at once since `j > 1` is false, and the round starts
over on the same vector. -/
theorem pushForward_max_max (fuel : Nat) (rest : List StoreKey) :
    pushForward 1 fuel (StoreKey.max :: StoreKey.max :: rest) = .error .outOfFuel := by
  induction fuel with
  | zero => rfl
  | succ fuel ih =>
    have notAbove : keyAt (StoreKey.max :: StoreKey.max :: rest) 1 ≤
        keyAt (StoreKey.max :: StoreKey.max :: rest) (1 - 1) := le_rfl
    have failed : (keyAt (StoreKey.max :: StoreKey.max :: rest) 1).increment.2 = false := by
      rw [keyAt, List.getD_cons_succ, List.getD_cons_zero, StoreKey.increment_max]
    rw [pushForward_of_max fuel notAbove failed]
    rw [keyAt, List.getD_cons_succ, List.getD_cons_zero, StoreKey.increment_max]
    exact ih

theorem indices_cons_cons (a b : StoreKey) (rest : List StoreKey) :
    indices (a :: b :: rest) = 1 :: List.range' 2 rest.length := by
  simp [indices, List.range'_succ]

/-- Past the initial `guarantee`, a vector that starts with two copies of `store_key_t::max()`
never gets through its first inner loop. -/
theorem foldlM_max_max (fuel : Nat) (rest : List StoreKey) :
    (indices (StoreKey.max :: StoreKey.max :: rest)).foldlM (fun sp i => pushForward i fuel sp)
      (StoreKey.max :: StoreKey.max :: rest) = .error .outOfFuel := by
  rw [indices_cons_cons, List.foldlM_cons, pushForward_max_max]
  rfl

/-- No vector that starts with two copies of `store_key_t::max()` comes back from
`ensure_distinct`: either its initial `guarantee` fails or the first inner loop runs forever. -/
theorem ensureDistinct_max_max (fuel : Nat) (rest : List StoreKey) :
    ensureDistinct fuel (StoreKey.max :: StoreKey.max :: rest) = .error .guaranteeFailed ∨
      ensureDistinct fuel (StoreKey.max :: StoreKey.max :: rest) = .error .outOfFuel := by
  unfold ensureDistinct
  split
  · exact Or.inr (foldlM_max_max fuel rest)
  · exact Or.inl rfl

/-- The walk-back from index 2 over two copies of `store_key_t::max()` decrements the one at
index 1 and stops there, whatever the key at index 0 is. -/
theorem walkBack_max_max (first : StoreKey) :
    walkBack [first, StoreKey.max, StoreKey.max] 2 = .ok [first, maxPredecessor, StoreKey.max] := by
  have equal : keyAt [first, StoreKey.max, StoreKey.max] (0 + 2) =
      keyAt [first, StoreKey.max, StoreKey.max] (0 + 1) := rfl
  rw [walkBack, if_pos equal]
  simp only [keyAt, List.getD_cons_succ, List.getD_cons_zero, StoreKey.decrement_max.2, if_true]
  rfl

/-- Any number of copies of `store_key_t::max()`, from two on, passes the initial `guarantee`
and then loops forever. -/
theorem ensureDistinct_replicate_max (fuel n : Nat) :
    ensureDistinct fuel (List.replicate (n + 2) StoreKey.max) = .error .outOfFuel := by
  have atMax : ∀ k, k < n + 2 → keyAt (List.replicate (n + 2) StoreKey.max) k = StoreKey.max := by
    intro k below
    simp [keyAt, List.getD_eq_getElem?_getD, below]
  have guaranteed : ((indices (List.replicate (n + 2) StoreKey.max)).all fun i =>
      keyAt (List.replicate (n + 2) StoreKey.max) (i - 1) ≤
        keyAt (List.replicate (n + 2) StoreKey.max) i) = true := by
    simp only [List.all_eq_true, decide_eq_true_eq]
    intro i member
    have inside := (mem_indices.mp member).2
    rw [atMax i (by simpa using inside), atMax (i - 1) (by simp at inside; omega)]
  rw [ensureDistinct, if_pos guaranteed]
  exact foldlM_max_max fuel (List.replicate n StoreKey.max)

/-- Two trailing copies of `store_key_t::max()` after its predecessor: the walk-back lowers
index 1 to the key at index 0 and nothing checks that pair again. -/
theorem ensureDistinct_predecessor_max_max (fuel : Nat) :
    ensureDistinct (fuel + 2) [maxPredecessor, StoreKey.max, StoreKey.max] =
      .ok [maxPredecessor, maxPredecessor, StoreKey.max] := by
  have below := maxPredecessor_lt_max
  have guaranteed : ((indices [maxPredecessor, StoreKey.max, StoreKey.max]).all fun i =>
      keyAt [maxPredecessor, StoreKey.max, StoreKey.max] (i - 1) ≤
        keyAt [maxPredecessor, StoreKey.max, StoreKey.max] i) = true := by
    rw [show indices [maxPredecessor, StoreKey.max, StoreKey.max] = [1, 2] from rfl]
    simp only [List.all_cons, List.all_nil, Bool.and_true, Bool.and_eq_true, decide_eq_true_eq]
    exact ⟨le_of_lt below, le_rfl⟩
  -- index 1 is already above index 0
  have first : pushForward 1 (fuel + 2) [maxPredecessor, StoreKey.max, StoreKey.max] =
      .ok [maxPredecessor, StoreKey.max, StoreKey.max] :=
    pushForward_of_lt (fuel + 1) below
  -- index 2 cannot be incremented; the walk-back lowers index 1 to index 0's key
  have notAbove : keyAt [maxPredecessor, StoreKey.max, StoreKey.max] 2 ≤
      keyAt [maxPredecessor, StoreKey.max, StoreKey.max] (2 - 1) := le_rfl
  have failed : (keyAt [maxPredecessor, StoreKey.max, StoreKey.max] 2).increment.2 = false := by
    simp [keyAt, StoreKey.increment_max]
  have second : pushForward 2 (fuel + 2) [maxPredecessor, StoreKey.max, StoreKey.max] =
      .ok [maxPredecessor, maxPredecessor, StoreKey.max] := by
    rw [pushForward_of_max (fuel + 1) notAbove failed]
    simp only [keyAt, List.getD_cons_succ, List.getD_cons_zero, StoreKey.increment_max]
    rw [show [maxPredecessor, StoreKey.max, StoreKey.max].set 2 StoreKey.max =
      [maxPredecessor, StoreKey.max, StoreKey.max] from rfl, walkBack_max_max, ok_bind]
    exact pushForward_of_lt fuel below
  rw [ensureDistinct, if_pos guaranteed, show indices [maxPredecessor, StoreKey.max, StoreKey.max] =
    [1, 2] from rfl, List.foldlM_cons, first, ok_bind', List.foldlM_cons, second, ok_bind']
  rfl

theorem ensure_distinct_fails_at_max :
    (∀ fuel n, ensureDistinct fuel (List.replicate (n + 2) StoreKey.max) = .error .outOfFuel) ∧
      ∀ fuel, ensureDistinct (fuel + 2) [maxPredecessor, StoreKey.max, StoreKey.max] =
        .ok [maxPredecessor, maxPredecessor, StoreKey.max] :=
  ⟨ensureDistinct_replicate_max, ensureDistinct_predecessor_max_max⟩

end RethinkDB.Tables
