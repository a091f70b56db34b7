import Mathlib
import RethinkDB.Foundations.GroupedFold
import RethinkDB.Foundations.Optimum
import RethinkDB.Foundations.SortedMerge
import RethinkDB.RdbProtocol.Compare
import RethinkDB.Btree.Keys

/-!
# Accumulators across shards

`rdb_protocol/shards.cc` folds the rows a read meets into one accumulator per group
(`terminal_t::operator()`, batch by batch) and merges the results of the shards, one at a
time on the eager path (`terminal_t::add_res`) or all at once after a range read
(`grouped_acc_t::unshard`).  A `Terminal` is what a `terminal_t<T>` overrides: its default
value, its `accumulate` of one row and its `unshard_impl` of one partial result; the loops
around them are the grouped folds of `GroupedFold`, with the groups keyed by equality.

`count` counts, and `min` and `max` keep the best row by `datum_lt` and `datum_gt`
(`optimizing_terminal_t`, through `optimizer_t::swap_if_other_better`, which swaps only on a
strict win).  Whatever the sharding, the batching and the order of the results, the counts
are those of one accumulator fed all the rows (`count_agrees_across_shards`), and the optima
agree up to `cmp` where `cmp` is a total preorder on the values met
(`optima_agree_across_shards`); where it is not, as on a point, a plain object and a binary
value, which `cmp` orders in a cycle, the minimum depends on the sharding.
`append_t::unshard_impl` merges the key-sorted streams of
the shards into one, as far as `last_key` (`appendUnshardImpl_sorted_merge`).
-/

namespace RethinkDB
namespace Ql

open GroupedFold

/-! ## Terminals -/

/-- A `terminal_t<T>`: its `default_val`, its `accumulate` of one row, which says whether it
took the row, and its `unshard_impl` of one partial result. -/
structure Terminal (T : Type) where
  defaultVal : T
  accumulate : Datum → T → Except Error (T × Bool)
  unshardImpl : T → T → Except Error T

namespace Terminal

variable {K T : Type} [DecidableEq K] (term : Terminal T)

/-- `terminal_t::operator()(env, groups)`: each group's rows into the accumulator of its key;
a key none of whose rows was taken is erased again. -/
def apply (acc : List (K × T)) (groups : List (K × List Datum)) : Except Error (List (K × T)) :=
  foldGroups term.defaultVal term.accumulate acc groups

/-- `terminal_t::add_res`: a shard's result, swapped in where the accumulator is empty and
otherwise merged into it key by key. -/
def addRes (acc : List (K × T)) (res : Except Error (List (K × T))) :
    Except Error (List (K × T)) := do
  let gres ← res
  if acc.isEmpty then pure gres
  else mergeInto term.defaultVal term.unshardImpl acc gres

/-- `grouped_acc_t::unshard` of a terminal: the results of every key, gathered in order, merged
into a fresh accumulator by `terminal_t::unshard_impl` one after the other. -/
def unshard (results : List (List (K × T))) : Except Error (List (K × T)) :=
  mergeAll term.defaultVal (fun out ts => ts.foldlM term.unshardImpl out) results

/-- One shard: its batches through one accumulator, in turn. -/
def runShard (batches : List (List (K × List Datum))) : Except Error (List (K × T)) :=
  batches.foldlM term.apply []

/-- The results of the shards, passed to `add_res` in turn. -/
def addResults (results : List (Except Error (List (K × T)))) : Except Error (List (K × T)) :=
  results.foldlM term.addRes []

end Terminal

/-- The rows of a shard's batches, each with its group's key. -/
def shardRows {K : Type} (batches : List (List (K × List Datum))) : List (K × Datum) :=
  batches.flatMap rowsOf

/-- What a terminal's result keeps under sharding, as `agree` says: the results of the shards,
merged by `unshard` or passed to `add_res` in turn, agree with the result of one accumulator
fed the batches `single`. -/
def ShardsAgree {K T : Type} [DecidableEq K] (term : Terminal T)
    (agree : List (K × T) → List (K × T) → Prop) (shards : List (List (List (K × List Datum))))
    (single : List (List (K × List Datum))) : Prop :=
  ∃ one, term.runShard single = .ok one ∧
    (∃ results merged, shards.mapM term.runShard = .ok results ∧
      term.unshard results = .ok merged ∧ agree merged one) ∧
    ∃ merged, term.addResults (shards.map term.runShard) = .ok merged ∧ agree merged one

/-- `count_terminal_t`; `uint64_t` counts are numbers here. -/
def countTerminal : Terminal Nat where
  defaultVal := 0
  accumulate _ out := pure (out + 1, true)
  unshardImpl out el := pure (out + el)

/-- `optimizer_t::swap_if_other_better`: the other row and value where there was none, or
where `beats` finds the other value better; what the optimizer holds afterwards. -/
def swapIfOtherBetter (beats : Datum → Datum → Except Error Bool)
    (out other : Option (Datum × Datum)) : Except Error (Option (Datum × Datum)) :=
  match other, out with
  | none, _ => pure out
  | some other, none => pure (some other)
  | some other, some current => do
      if ← beats other.2 current.2 then pure (some other) else pure (some current)

/-- `optimizing_terminal_t` under `skip_terminal_t::accumulate`, given what the function does
on each row: `none` where it fails with a `NON_EXISTENCE` error, which skips the row.  An
`optimizer_t` holds its row and value both or neither. -/
def optimizingTerminal (f : Datum → Except Error (Option Datum))
    (beats : Datum → Datum → Except Error Bool) : Terminal (Option (Datum × Datum)) where
  defaultVal := none
  accumulate el out := do
    match ← f el with
    | none => pure (out, false)
    | some val => do
        let out ← swapIfOtherBetter beats out (some (el, val))
        pure (out, true)
  unshardImpl out el := swapIfOtherBetter beats out el

/-- `datum_lt`. -/
def datumLt (version : ReqlVersion) (val1 val2 : Datum) : Except Error Bool := do
  return decide ((← cmp version val1 val2) < 0)

/-- `datum_gt`. -/
def datumGt (version : ReqlVersion) (val1 val2 : Datum) : Except Error Bool := do
  return decide ((← cmp version val1 val2) > 0)

/-- The `min` terminal. -/
def minTerminal (version : ReqlVersion) (f : Datum → Except Error (Option Datum)) :
    Terminal (Option (Datum × Datum)) :=
  optimizingTerminal f (datumLt version)

/-- The `max` terminal. -/
def maxTerminal (version : ReqlVersion) (f : Datum → Except Error (Option Datum)) :
    Terminal (Option (Datum × Datum)) :=
  optimizingTerminal f (datumGt version)

/-! ## Sharding keeps what the accumulators record -/

section Sharding

variable {K T : Type} [DecidableEq K] {term : Terminal T} {Summarizes : List Datum → T → Prop}
  {counted admissible : Datum → Prop}

omit [DecidableEq K] in
theorem shardRows_cons (batch : List (K × List Datum)) (batches : List (List (K × List Datum))) :
    shardRows (batch :: batches) = rowsOf batch ++ shardRows batches := rfl

/-- A shard's result records its rows. -/
theorem Terminal.runShard_represents (laws : SummaryLaws Summarizes counted term.defaultVal)
    (stepLaw : StepLaw Summarizes counted term.accumulate admissible)
    (batches : List (List (K × List Datum))) (rowsOk : ∀ p ∈ shardRows batches, admissible p.2) :
    ∃ result, term.runShard batches = .ok result ∧
      Represents Summarizes counted result (shardRows batches) := by
  have start : Represents Summarizes counted ([] : List (K × T)) (shardRows ([] : List (List (K × List Datum)))) :=
    represents_nil_iff.mpr fun _ member => nomatch member
  refine foldlM_invariant (fun done acc => Represents Summarizes counted acc (shardRows done))
    batches start ?_
  intro done batch rest acc split representsDone
  have within : ∀ p ∈ shardRows done ++ rowsOf batch, admissible p.2 := fun p member =>
    rowsOk p (by
      rw [← split, shardRows, List.flatMap_append, List.flatMap_cons]
      simp only [shardRows, List.mem_append] at member ⊢
      tauto)
  obtain ⟨acc', applied, represents'⟩ :=
    foldGroups_represents laws stepLaw batch representsDone within
  exact ⟨acc', applied, by simpa [shardRows] using represents'⟩

/-- Every shard's result records its rows. -/
theorem Terminal.mapM_runShard_represents (laws : SummaryLaws Summarizes counted term.defaultVal)
    (stepLaw : StepLaw Summarizes counted term.accumulate admissible)
    (shards : List (List (List (K × List Datum))))
    (rowsOk : ∀ p ∈ shards.flatMap shardRows, admissible p.2) :
    ∃ results, shards.mapM term.runShard = .ok results ∧
      List.Forall₂ (Represents Summarizes counted) results (shards.map shardRows) := by
  induction shards with
  | nil => exact ⟨[], rfl, List.Forall₂.nil⟩
  | cons batches shards ih =>
      rw [List.flatMap_cons] at rowsOk
      obtain ⟨result, ran, represents⟩ := term.runShard_represents laws stepLaw batches
        fun p member => rowsOk p (List.mem_append_left _ member)
      obtain ⟨results, rest, representsRest⟩ :=
        ih fun p member => rowsOk p (List.mem_append_right _ member)
      refine ⟨result :: results, ?_, List.Forall₂.cons represents representsRest⟩
      rw [List.mapM_cons, ran, rest]
      rfl

/-- `add_res` of a shard's result records the rows of both. -/
theorem Terminal.addRes_represents (laws : SummaryLaws Summarizes counted term.defaultVal)
    (combineLaw : CombineLaw Summarizes Summarizes term.unshardImpl admissible)
    {acc result : List (K × T)} {rows resultRows : List (K × Datum)}
    (represents : Represents Summarizes counted acc rows)
    (representsResult : Represents Summarizes counted result resultRows)
    (rowsOk : ∀ p ∈ rows, admissible p.2) (resultOk : ∀ p ∈ resultRows, admissible p.2) :
    ∃ acc', term.addRes acc (.ok result) = .ok acc' ∧
      Represents Summarizes counted acc' (rows ++ resultRows) := by
  cases acc with
  | nil =>
      -- The swap: the accumulator had taken nothing.
      have uncounted := represents_nil_iff.mp represents
      refine ⟨result, rfl, representsResult.nodup, fun k => ?_⟩
      rw [rowsAt_append]
      refine representsAt_perm laws List.perm_append_comm
        (representsAt_append_uncounted laws (representsResult.atKey k) fun a member => ?_)
      exact uncounted (k, a) (mem_of_mem_rowsAt member)
  | cons pair rest =>
      simp only [Terminal.addRes, bind, Except.bind, List.isEmpty_cons, Bool.false_eq_true,
        if_false]
      exact mergeInto_represents laws combineLaw result represents representsResult rowsOk resultOk

/-- **Across shards**: whatever the split of the rows into shards and batches, the results
merged by `unshard`, or passed to `add_res` in turn, record all the rows. -/
theorem Terminal.merged_represents (laws : SummaryLaws Summarizes counted term.defaultVal)
    (stepLaw : StepLaw Summarizes counted term.accumulate admissible)
    (combineLaw : CombineLaw Summarizes Summarizes term.unshardImpl admissible)
    (shards : List (List (List (K × List Datum))))
    (rowsOk : ∀ p ∈ shards.flatMap shardRows, admissible p.2) :
    (∃ results merged, shards.mapM term.runShard = .ok results ∧
        term.unshard results = .ok merged ∧
        Represents Summarizes counted merged (shards.flatMap shardRows)) ∧
      ∃ merged, term.addResults (shards.map term.runShard) = .ok merged ∧
        Represents Summarizes counted merged (shards.flatMap shardRows) := by
  obtain ⟨results, ran, represents⟩ := term.mapM_runShard_represents laws stepLaw shards rowsOk
  have flat : (shards.map shardRows).flatten = shards.flatMap shardRows := by
    rw [List.flatMap_def]
  constructor
  · obtain ⟨merged, unsharded, representsMerged⟩ :=
      mergeAll_represents laws combineLaw represents (flat ▸ rowsOk)
    exact ⟨results, merged, ran, unsharded, flat ▸ representsMerged⟩
  · -- `add_res` in turn, from the empty accumulator.
    have start : Represents Summarizes counted ([] : List (K × T))
        (([] : List (List (List (K × List Datum)))).flatMap shardRows) :=
      represents_nil_iff.mpr fun _ member => nomatch member
    rw [Terminal.addResults, List.foldlM_map]
    refine foldlM_invariant
      (fun done acc => Represents Summarizes counted acc (done.flatMap shardRows)) shards start ?_
    intro done batches rest acc split representsDone
    have within : ∀ p ∈ done.flatMap shardRows ++ shardRows batches, admissible p.2 :=
      fun p member => rowsOk p (by
        rw [← split, List.flatMap_append, List.flatMap_cons]
        simp only [List.mem_append] at member ⊢
        tauto)
    obtain ⟨result, ran, representsResult⟩ := term.runShard_represents laws stepLaw batches
      fun p member => within p (List.mem_append_right _ member)
    obtain ⟨acc', added, represents'⟩ := term.addRes_represents laws combineLaw representsDone
      representsResult (fun p member => within p (List.mem_append_left _ member))
      fun p member => within p (List.mem_append_right _ member)
    exact ⟨acc', by rw [ran]; exact added, by simpa using represents'⟩

end Sharding

/-! ## `count` -/

section Count

/-- What a count records of its rows: how many there are. -/
def CountOf (rows : List Datum) (n : Nat) : Prop := n = rows.length

theorem countOf_laws : SummaryLaws CountOf (fun _ => True) countTerminal.defaultVal where
  perm perm counted := counted.trans perm.length_eq
  nil := rfl
  skip uncounted counted := by
    rw [List.eq_nil_iff_forall_not_mem.mpr fun a member => uncounted a member trivial,
      List.append_nil]
    exact counted

theorem countOf_step :
    StepLaw CountOf (fun _ => True) countTerminal.accumulate (fun _ => True) where
  step {l _ t} _ _ counted :=
    ⟨t + 1, true, rfl, iff_of_true rfl trivial, by
      rw [CountOf, List.length_append, List.length_singleton, counted]⟩

theorem countOf_combine : CombineLaw CountOf CountOf countTerminal.unshardImpl (fun _ => True) where
  combine {l l' t r} _ _ counted counted' :=
    ⟨t + r, rfl, by rw [CountOf, List.length_append, counted, counted']⟩

/-- Counts that record the same rows, in any order, are the same at every key. -/
theorem lookup_eq_of_counts {K : Type} [DecidableEq K] {map map' : List (K × Nat)}
    {rows rows' : List (K × Datum)} (represents : Represents CountOf (fun _ => True) map rows)
    (represents' : Represents CountOf (fun _ => True) map' rows') (perm : rows.Perm rows')
    (k : K) : lookup k map = lookup k map' := by
  obtain ⟨same, summaries⟩ := represents.agree countOf_laws represents' perm k
  cases found : lookup k map <;> cases found' : lookup k map'
  case none.none => rfl
  case none.some => simp [found, found'] at same
  case some.none => simp [found, found'] at same
  case some.some n n' =>
    obtain ⟨counted, counted'⟩ := summaries n n' found found'
    unfold CountOf at counted counted'
    rw [counted, counted']

/-- **`count` across shards**: however the rows are split into shards and batches, and
whichever way the results are merged, every group holds the count one accumulator gives all
the rows. -/
theorem count_agrees_across_shards {K : Type} [DecidableEq K]
    (shards : List (List (List (K × List Datum)))) (single : List (List (K × List Datum)))
    (same : (shards.flatMap shardRows).Perm (shardRows single)) :
    ShardsAgree countTerminal (fun merged one => ∀ k, lookup k merged = lookup k one) shards
      single := by
  obtain ⟨one, ran, representsOne⟩ :=
    countTerminal.runShard_represents countOf_laws countOf_step single fun _ _ => trivial
  obtain ⟨⟨results, merged, ranAll, unsharded, representsMerged⟩, added, addedOk,
      representsAdded⟩ :=
    countTerminal.merged_represents countOf_laws countOf_step countOf_combine shards
      fun _ _ => trivial
  refine ⟨one, ran, ⟨results, merged, ranAll, unsharded, fun k => ?_⟩, added, addedOk,
    fun k => ?_⟩
  · exact lookup_eq_of_counts representsMerged representsOne same k
  · exact lookup_eq_of_counts representsAdded representsOne same k

end Count

/-! ## `min` and `max` -/

section Optima

variable (f : Datum → Except Error (Option Datum)) (beats : Datum → Datum → Except Error Bool)

/-- The rows `f` gives a value, each with its value. -/
def valued (rows : List Datum) : List (Datum × Datum) :=
  rows.filterMap fun el =>
    match f el with
    | .ok (some val) => some (el, val)
    | _ => none

/-- `beats` where it succeeds, and `false` where it fails. -/
def beatsOrFalse (a b : Datum) : Bool :=
  match beats a b with
  | .ok result => result
  | .error _ => false

/-- What an optimizer records of its rows: an optimum, by `beats`, of the rows `f` gives a
value. -/
def OptimumOf (rows : List Datum) (out : Option (Datum × Datum)) : Prop :=
  Optimum.Optimal (beatsOrFalse beats) (valued f rows) out

/-- The rows an optimizer takes. -/
def HasValue (el : Datum) : Prop := ∃ val, f el = .ok (some val)

/-- A row `f` skips, or gives a value `good` holds of. -/
def ValueIn (good : Datum → Prop) (el : Datum) : Prop :=
  f el = .ok none ∨ ∃ val, f el = .ok (some val) ∧ good val

theorem valued_append (l l' : List Datum) : valued f (l ++ l') = valued f l ++ valued f l' :=
  List.filterMap_append

theorem valued_singleton_of_value {el val : Datum} (found : f el = .ok (some val)) :
    valued f [el] = [(el, val)] := by
  simp [valued, found]

theorem valued_singleton_of_none {el : Datum} (skipped : f el = .ok none) : valued f [el] = [] := by
  simp [valued, skipped]

theorem valued_eq_nil {l : List Datum} (uncounted : ∀ a ∈ l, ¬HasValue f a) : valued f l = [] := by
  refine List.filterMap_eq_nil_iff.mpr fun el member => ?_
  cases found : f el with
  | error _ => rfl
  | ok val =>
      cases val with
      | none => rfl
      | some val => exact absurd ⟨val, found⟩ (uncounted el member)

theorem good_of_mem_valued {good : Datum → Prop} {l : List Datum}
    (rowsOk : ∀ b ∈ l, ValueIn f good b) : ∀ p ∈ valued f l, good p.2 := by
  intro p member
  obtain ⟨el, elMember, found⟩ := List.mem_filterMap.mp member
  rcases rowsOk el elMember with skipped | ⟨val, valued, goodVal⟩
  · simp [skipped] at found
  · simp only [valued] at found
    cases found
    exact goodVal

theorem optimumOf_laws :
    SummaryLaws (OptimumOf f beats) (HasValue f) (optimizingTerminal f beats).defaultVal where
  perm perm optimal := Optimum.Optimal.perm optimal (perm.filterMap _)
  nil := Optimum.optimal_nil
  skip uncounted optimal := by
    rw [OptimumOf, valued_append, valued_eq_nil f uncounted, List.append_nil]
    exact optimal

/-- Where `beats` succeeds, `swap_if_other_better` keeps what `choose` keeps. -/
theorem swapIfOtherBetter_eq {out other : Option (Datum × Datum)}
    (succeeds : ∀ o c, other = some o → out = some c → ∃ result, beats o.2 c.2 = .ok result) :
    swapIfOtherBetter beats out other = .ok (Optimum.choose (beatsOrFalse beats) out other) := by
  match other, out with
  | none, out => cases out <;> rfl
  | some o, none => rfl
  | some o, some c =>
      obtain ⟨result, found⟩ := succeeds o c rfl rfl
      simp only [swapIfOtherBetter, Optimum.choose, beatsOrFalse, found, bind, Except.bind]
      cases result <;> rfl

section Ordered

variable {good : Datum → Prop} (order : Optimum.StrictWeakOn (beatsOrFalse beats) good)
  (succeeds : ∀ a b, good a → good b → ∃ result, beats a b = .ok result)
include order succeeds

theorem optimumOf_step :
    StepLaw (OptimumOf f beats) (HasValue f) (optimizingTerminal f beats).accumulate
      (ValueIn f good) where
  step {l el out} admissible rowsOk optimal := by
    rcases admissible with skipped | ⟨val, found, goodVal⟩
    · -- `f` skips the row: the optimizer stays as it is.
      refine ⟨out, false, ?_, ⟨nofun, fun ⟨val, found⟩ => ?_⟩, ?_⟩
      · simp [optimizingTerminal, skipped, bind, Except.bind, pure, Except.pure]
      · rw [skipped] at found
        cases found
      · rw [OptimumOf, valued_append, valued_singleton_of_none f skipped, List.append_nil]
        exact optimal
    · have goods : ∀ q ∈ valued f l ++ [(el, val)], good q.2 := by
        intro q member
        rcases List.mem_append.mp member with early | late
        · exact good_of_mem_valued f rowsOk q early
        · rw [List.mem_singleton.mp late]
          exact goodVal
      have swapped : swapIfOtherBetter beats out (some (el, val)) =
          .ok (Optimum.choose (beatsOrFalse beats) out (some (el, val))) :=
        swapIfOtherBetter_eq beats fun o c same current => by
          cases same
          exact succeeds _ _ goodVal
            (goods c (List.mem_append_left _ (optimal.mem c current)))
      refine ⟨Optimum.choose (beatsOrFalse beats) out (some (el, val)), true, ?_,
        iff_of_true rfl ⟨val, found⟩, ?_⟩
      · simp only [optimizingTerminal, found, swapped, bind, Except.bind, pure, Except.pure]
      · rw [OptimumOf, valued_append, valued_singleton_of_value f found]
        exact Optimum.Optimal.snoc order optimal (el, val) goods

theorem optimumOf_combine :
    CombineLaw (OptimumOf f beats) (OptimumOf f beats) (optimizingTerminal f beats).unshardImpl
      (ValueIn f good) where
  combine {l l' out other} rowsOk rowsOk' optimal optimal' := by
    have goods : ∀ q ∈ valued f l ++ valued f l', good q.2 := by
      intro q member
      rcases List.mem_append.mp member with early | late
      · exact good_of_mem_valued f rowsOk q early
      · exact good_of_mem_valued f rowsOk' q late
    refine ⟨Optimum.choose (beatsOrFalse beats) out other,
      swapIfOtherBetter_eq beats fun o c same current => ?_, ?_⟩
    · exact succeeds _ _ (goods o (List.mem_append_right _ (optimal'.mem o same)))
        (goods c (List.mem_append_left _ (optimal.mem c current)))
    · rw [OptimumOf, valued_append]
      exact Optimum.Optimal.choose_append order optimal optimal' goods

end Ordered

end Optima

/-! ## `datum_lt` and `datum_gt` on a total preorder -/

/-- `cmp` as a total preorder on the values `good` holds of: it succeeds on them, swapping
its operands turns its sign round, and `cmp ≤ 0` is transitive. -/
structure CmpPreorderOn (version : ReqlVersion) (good : Datum → Prop) : Prop where
  succeeds : ∀ a b, good a → good b → ∃ c, cmp version a b = .ok c
  antisymm : ∀ a b c c', good a → good b → cmp version a b = .ok c → cmp version b a = .ok c' →
    c'.sign = -c.sign
  trans : ∀ a b c x y z, good a → good b → good c → cmp version a b = .ok x →
    cmp version b c = .ok y → cmp version a c = .ok z → x ≤ 0 → y ≤ 0 → z ≤ 0

theorem beatsOrFalse_datumLt {version : ReqlVersion} {a b : Datum} {c : Int}
    (found : cmp version a b = .ok c) : beatsOrFalse (datumLt version) a b = decide (c < 0) := by
  simp only [beatsOrFalse, datumLt, found, bind, Except.bind, pure, Except.pure]

theorem beatsOrFalse_datumGt {version : ReqlVersion} {a b : Datum} {c : Int}
    (found : cmp version a b = .ok c) : beatsOrFalse (datumGt version) a b = decide (c > 0) := by
  simp only [beatsOrFalse, datumGt, found, bind, Except.bind, pure, Except.pure]

namespace CmpPreorderOn

variable {version : ReqlVersion} {good : Datum → Prop} (order : CmpPreorderOn version good)
include order

/-- The two comparisons of a pair: one is below zero exactly where the other is above. -/
theorem neg_iff_pos {a b : Datum} {c c' : Int} (goodA : good a) (goodB : good b)
    (found : cmp version a b = .ok c) (found' : cmp version b a = .ok c') : c' < 0 ↔ 0 < c := by
  have signs := order.antisymm a b c c' goodA goodB found found'
  rw [← Int.sign_eq_neg_one_iff_neg, ← Int.sign_eq_one_iff_pos, signs]
  omega

theorem datumLt_succeeds (a b : Datum) (goodA : good a) (goodB : good b) :
    ∃ result, datumLt version a b = .ok result := by
  obtain ⟨c, found⟩ := order.succeeds a b goodA goodB
  exact ⟨decide (c < 0), by simp only [datumLt, found, bind, Except.bind, pure, Except.pure]⟩

theorem datumGt_succeeds (a b : Datum) (goodA : good a) (goodB : good b) :
    ∃ result, datumGt version a b = .ok result := by
  obtain ⟨c, found⟩ := order.succeeds a b goodA goodB
  exact ⟨decide (c > 0), by simp only [datumGt, found, bind, Except.bind, pure, Except.pure]⟩

/-- `datum_lt` is a strict weak order on the values. -/
theorem strictWeak_datumLt : Optimum.StrictWeakOn (beatsOrFalse (datumLt version)) good where
  irrefl a goodA := by
    obtain ⟨c, found⟩ := order.succeeds a a goodA goodA
    have := order.neg_iff_pos goodA goodA found found
    rw [beatsOrFalse_datumLt found, decide_eq_false_iff_not]
    omega
  trans a b c goodA goodB goodC ab bc := by
    obtain ⟨x, foundAB⟩ := order.succeeds a b goodA goodB
    obtain ⟨y, foundBC⟩ := order.succeeds b c goodB goodC
    obtain ⟨z, foundAC⟩ := order.succeeds a c goodA goodC
    obtain ⟨w, foundCA⟩ := order.succeeds c a goodC goodA
    obtain ⟨u, foundBA⟩ := order.succeeds b a goodB goodA
    rw [beatsOrFalse_datumLt foundAB, decide_eq_true_iff] at ab
    rw [beatsOrFalse_datumLt foundBC, decide_eq_true_iff] at bc
    rw [beatsOrFalse_datumLt foundAC, decide_eq_true_iff]
    have below := order.trans a b c x y z goodA goodB goodC foundAB foundBC foundAC
      ab.le bc.le
    -- Were `a` and `c` equal, `c ≤ a` would give `b ≤ a` against `a < b`.
    have ca := order.neg_iff_pos goodA goodC foundAC foundCA
    have ac := order.neg_iff_pos goodC goodA foundCA foundAC
    have ba := order.neg_iff_pos goodB goodA foundBA foundAB
    have := order.trans b c a y w u goodB goodC goodA foundBC foundCA foundBA bc.le
    omega
  split a b c goodA goodB goodC ac := by
    obtain ⟨x, foundAB⟩ := order.succeeds a b goodA goodB
    obtain ⟨y, foundBC⟩ := order.succeeds b c goodB goodC
    obtain ⟨z, foundAC⟩ := order.succeeds a c goodA goodC
    obtain ⟨u, foundBA⟩ := order.succeeds b a goodB goodA
    obtain ⟨v, foundCB⟩ := order.succeeds c b goodC goodB
    obtain ⟨w, foundCA⟩ := order.succeeds c a goodC goodA
    rw [beatsOrFalse_datumLt foundAC, decide_eq_true_iff] at ac
    rw [beatsOrFalse_datumLt foundAB, beatsOrFalse_datumLt foundBC, decide_eq_true_iff,
      decide_eq_true_iff]
    -- Otherwise `c ≤ b ≤ a`, against `a < c`.
    by_contra neither
    have ba := order.neg_iff_pos goodB goodA foundBA foundAB
    have cb := order.neg_iff_pos goodC goodB foundCB foundBC
    have ca := order.neg_iff_pos goodC goodA foundCA foundAC
    have := order.trans c b a v u w goodC goodB goodA foundCB foundBA foundCA (by omega)
      (by omega)
    omega

/-- On the values, `datum_gt` is `datum_lt` read the other way round. -/
theorem beatsOrFalse_datumGt_eq (a b : Datum) (goodA : good a) (goodB : good b) :
    beatsOrFalse (datumGt version) a b = beatsOrFalse (datumLt version) b a := by
  obtain ⟨c, found⟩ := order.succeeds a b goodA goodB
  obtain ⟨c', found'⟩ := order.succeeds b a goodB goodA
  rw [beatsOrFalse_datumGt found, beatsOrFalse_datumLt found']
  exact decide_eq_decide.mpr (order.neg_iff_pos goodA goodB found found').symm

/-- `datum_gt` is a strict weak order on the values. -/
theorem strictWeak_datumGt : Optimum.StrictWeakOn (beatsOrFalse (datumGt version)) good :=
  order.strictWeak_datumLt.swap.congr order.beatsOrFalse_datumGt_eq

/-- Values neither of which `datum_lt` finds below the other compare equal. -/
theorem cmp_eq_zero_of_datumLt {a b : Datum} (goodA : good a) (goodB : good b)
    (ab : beatsOrFalse (datumLt version) a b = false)
    (ba : beatsOrFalse (datumLt version) b a = false) : cmp version a b = .ok 0 := by
  obtain ⟨c, found⟩ := order.succeeds a b goodA goodB
  obtain ⟨c', found'⟩ := order.succeeds b a goodB goodA
  rw [beatsOrFalse_datumLt found, decide_eq_false_iff_not] at ab
  rw [beatsOrFalse_datumLt found', decide_eq_false_iff_not] at ba
  have := order.neg_iff_pos goodA goodB found found'
  rw [found, show c = 0 by omega]

/-- Values neither of which `datum_gt` finds above the other compare equal. -/
theorem cmp_eq_zero_of_datumGt {a b : Datum} (goodA : good a) (goodB : good b)
    (ab : beatsOrFalse (datumGt version) a b = false)
    (ba : beatsOrFalse (datumGt version) b a = false) : cmp version a b = .ok 0 := by
  rw [order.beatsOrFalse_datumGt_eq a b goodA goodB] at ab
  rw [order.beatsOrFalse_datumGt_eq b a goodB goodA] at ba
  exact order.cmp_eq_zero_of_datumLt goodA goodB ba ab

end CmpPreorderOn

/-! ## Optima across shards -/

section OptimaAcrossShards

/-- Grouped optima that hold the same groups, each with a row, and with values `cmp` finds
equal. -/
def OptimaAgree {K : Type} [DecidableEq K] (version : ReqlVersion)
    (map map' : List (K × Option (Datum × Datum))) : Prop :=
  ∀ k, (lookup k map).isSome = (lookup k map').isSome ∧
    ∀ out out', lookup k map = some out → lookup k map' = some out' →
      ∃ p p', out = some p ∧ out' = some p' ∧ cmp version p.2 p'.2 = .ok 0

variable {K : Type} [DecidableEq K] (f : Datum → Except Error (Option Datum))
  (beats : Datum → Datum → Except Error Bool) {version : ReqlVersion} {good : Datum → Prop}

/-- Optimizers that record the same rows, in any order, agree where values neither of which
beats the other compare equal. -/
theorem optimaAgree_of_represents
    (equal : ∀ a b, good a → good b → beatsOrFalse beats a b = false →
      beatsOrFalse beats b a = false → cmp version a b = .ok 0)
    {map map' : List (K × Option (Datum × Datum))} {rows rows' : List (K × Datum)}
    (represents : Represents (OptimumOf f beats) (HasValue f) map rows)
    (represents' : Represents (OptimumOf f beats) (HasValue f) map' rows')
    (perm : rows.Perm rows') (rowsOk : ∀ p ∈ rows', ValueIn f good p.2) :
    OptimaAgree version map map' := by
  intro k
  obtain ⟨same, summaries⟩ := represents.agree (optimumOf_laws f beats) represents' perm k
  refine ⟨same, fun out out' found found' => ?_⟩
  obtain ⟨optimal, optimal'⟩ := summaries out out' found found'
  have goods := good_of_mem_valued f fun b member => rowsOk (k, b) (mem_of_mem_rowsAt member)
  -- The group holds a row `f` gives a value, so neither optimizer is empty.
  have here := represents'.atKey k
  rw [found'] at here
  obtain ⟨⟨el, member, val, gives⟩, -⟩ := here
  have valuedMember : (el, val) ∈ valued f (rowsAt k rows') :=
    List.mem_filterMap.mpr ⟨el, member, by simp [gives]⟩
  have nonempty := List.ne_nil_of_mem valuedMember
  cases out with
  | none => exact absurd (optimal.none_iff.mp rfl) nonempty
  | some p =>
      cases out' with
      | none => exact absurd (optimal'.none_iff.mp rfl) nonempty
      | some p' =>
          obtain ⟨beaten, beaten'⟩ := Optimum.Optimal.incomparable optimal optimal'
          exact ⟨p, p', rfl, rfl, equal p.2 p'.2 (goods p (optimal.mem p rfl))
            (goods p' (optimal'.mem p' rfl)) beaten beaten'⟩

/-- **An optimizer across shards**: where `beats` is a strict weak order on the values `f`
gives the rows, and values neither of which beats the other compare equal, the optima of the
shards, merged either way, agree with those of one accumulator fed all the rows. -/
theorem optimizing_agrees_across_shards (order : Optimum.StrictWeakOn (beatsOrFalse beats) good)
    (succeeds : ∀ a b, good a → good b → ∃ result, beats a b = .ok result)
    (equal : ∀ a b, good a → good b → beatsOrFalse beats a b = false →
      beatsOrFalse beats b a = false → cmp version a b = .ok 0)
    (shards : List (List (List (K × List Datum)))) (single : List (List (K × List Datum)))
    (same : (shards.flatMap shardRows).Perm (shardRows single))
    (rowsOk : ∀ p ∈ shardRows single, ValueIn f good p.2) :
    ShardsAgree (optimizingTerminal f beats) (OptimaAgree version) shards single := by
  have laws := optimumOf_laws f beats
  have stepLaw := optimumOf_step f beats order succeeds
  obtain ⟨one, ran, representsOne⟩ :=
    (optimizingTerminal f beats).runShard_represents laws stepLaw single rowsOk
  obtain ⟨⟨results, merged, ranAll, unsharded, representsMerged⟩, added, addedOk,
      representsAdded⟩ :=
    (optimizingTerminal f beats).merged_represents laws stepLaw
      (optimumOf_combine f beats order succeeds) shards
      fun p member => rowsOk p (same.mem_iff.mp member)
  refine ⟨one, ran, ⟨results, merged, ranAll, unsharded, ?_⟩, added, addedOk, ?_⟩
  · exact optimaAgree_of_represents f beats equal representsMerged representsOne same rowsOk
  · exact optimaAgree_of_represents f beats equal representsAdded representsOne same rowsOk

/-- **`min` and `max` across shards**, where `cmp` is a total preorder on the values. -/
theorem optima_agree_across_shards (order : CmpPreorderOn version good)
    (shards : List (List (List (K × List Datum)))) (single : List (List (K × List Datum)))
    (same : (shards.flatMap shardRows).Perm (shardRows single))
    (rowsOk : ∀ p ∈ shardRows single, ValueIn f good p.2) :
    ∀ term ∈ [minTerminal version f, maxTerminal version f],
      ShardsAgree term (OptimaAgree version) shards single := by
  intro term member
  rcases List.mem_pair.mp member with isMin | isMax
  · rw [isMin]
    exact optimizing_agrees_across_shards f (datumLt version) order.strictWeak_datumLt
      order.datumLt_succeeds (fun _ _ => order.cmp_eq_zero_of_datumLt) shards single same rowsOk
  · rw [isMax]
    exact optimizing_agrees_across_shards f (datumGt version) order.strictWeak_datumGt
      order.datumGt_succeeds (fun _ _ => order.cmp_eq_zero_of_datumGt) shards single same rowsOk

/-- Without the preorder the optima need not agree: `cmp` orders a point below `{"a": null}`,
that below a binary value and the binary value below the point.  One accumulator fed the
object, the point and the binary value in turn keeps the binary value; a shard of the point
and the binary value and a shard of the object, unsharded, keep the object, which `cmp` puts
below the binary value. -/
theorem min_of_cycle_depends_on_shards :
    let plain := Datum.object [(ascii "a", .null)]
    let shards : List (List (List (Unit × List Datum))) :=
      [[[((), [originPoint, .binary []])]], [[((), [plain])]]]
    let single : List (List (Unit × List Datum)) := [[((), [plain, originPoint, .binary []])]]
    (shards.flatMap shardRows).Perm (shardRows single) ∧
      ¬ShardsAgree (minTerminal .v2_1 fun el => .ok (some el)) (OptimaAgree .v2_1) shards single := by
  intro plain shards single
  have ran : (minTerminal .v2_1 fun el => .ok (some el)).runShard single =
      .ok [((), some (.binary [], .binary []))] := by
    decide +kernel
  have ranAll : shards.mapM (minTerminal .v2_1 fun el => .ok (some el)).runShard =
      .ok [[((), some (.binary [], .binary []))], [((), some (plain, plain))]] := by
    decide +kernel
  have unsharded : (minTerminal .v2_1 fun el => .ok (some el)).unshard
      [[((), some (.binary [], .binary []))], [((), some (plain, plain))]] =
      .ok [((), some (plain, plain))] := by
    decide +kernel
  have below : cmp .v2_1 plain (.binary []) = .ok (-1) := by
    decide +kernel
  refine ⟨by decide, ?_⟩
  rintro ⟨one, ranOne, ⟨results, merged, ranAll', unsharded', agree⟩, -⟩
  rw [ran] at ranOne
  rw [ranAll] at ranAll'
  cases ranOne
  cases ranAll'
  rw [unsharded] at unsharded'
  cases unsharded'
  obtain ⟨p, p', same, same', equal⟩ := (agree ()).2 _ _ rfl rfl
  cases same
  cases same'
  rw [below] at equal
  cases equal

end OptimaAcrossShards

/-! ## `append` -/

section Append

/-- `sorting_t`. -/
inductive Sorting where
  | unordered
  | ascending
  | descending
  deriving DecidableEq, Repr

/-- `reversed`: only a descending sorting is. -/
def reversed (sorting : Sorting) : Bool := sorting == .descending

/-- `key_le_t::is_le`: keys in the order of the sorting, `store_key_t`'s order read the other
way round where it is reversed. -/
def keyLe (sorting : Sorting) (key1 key2 : Btree.StoreKey) : Bool :=
  (!reversed sorting && decide (key1 ≤ key2)) || (reversed sorting && decide (key2 ≤ key1))

/-- `rget_item_t`: a row with its primary key and, where the read is sorted by an index, its
index value. -/
structure RgetItem where
  key : Btree.StoreKey
  sindexKey : Option Datum
  data : Datum

/-- `append_t::unshard_impl`: the streams of the shards, unordered one after the other, and
otherwise merged by taking, again and again, the least head by `key_le`, as far as the first
least head beyond `last_key`. -/
def appendUnshardImpl (sorting : Sorting) (lastKey : Btree.StoreKey) (out : List RgetItem)
    (streams : List (List RgetItem)) : List RgetItem :=
  if sorting = .unordered then
    out ++ streams.flatMap fun stream => stream.filter fun item => keyLe sorting item.key lastKey
  else
    out ++ SortedMerge.mergeLoop (fun item best => keyLe sorting item.key best.key)
      (fun item => keyLe sorting item.key lastKey) streams

theorem keyLe_total (sorting : Sorting) (key1 key2 : Btree.StoreKey) :
    keyLe sorting key1 key2 = true ∨ keyLe sorting key2 key1 = true := by
  unfold keyLe
  cases reversed sorting
  · simpa using le_total key1 key2
  · simpa using le_total key2 key1

theorem keyLe_trans (sorting : Sorting) {key1 key2 key3 : Btree.StoreKey}
    (le12 : keyLe sorting key1 key2 = true) (le23 : keyLe sorting key2 key3 = true) :
    keyLe sorting key1 key3 = true := by
  unfold keyLe at le12 le23 ⊢
  cases isReversed : reversed sorting
  · simp only [isReversed, Bool.not_false, Bool.true_and, Bool.false_and, Bool.or_false,
      decide_eq_true_eq] at le12 le23 ⊢
    exact le12.trans le23
  · simp only [isReversed, Bool.not_true, Bool.false_and, Bool.true_and, Bool.false_or,
      decide_eq_true_eq] at le12 le23 ⊢
    exact le23.trans le12

/-- **`append` across shards**: with a sorting, where each shard's stream is sorted by
`key_le`, `unshard_impl` adds to what it had the items whose key is `key_le` `last_key`, each
once, sorted. -/
theorem appendUnshardImpl_sorted_merge (sorting : Sorting) (ordered : sorting ≠ .unordered)
    (lastKey : Btree.StoreKey) (out : List RgetItem) (streams : List (List RgetItem))
    (sorted : ∀ stream ∈ streams, stream.Pairwise fun a b => keyLe sorting a.key b.key = true) :
    ∃ merged, appendUnshardImpl sorting lastKey out streams = out ++ merged ∧
      merged.Pairwise (fun a b => keyLe sorting a.key b.key = true) ∧
      merged.Perm (streams.flatten.filter fun item => keyLe sorting item.key lastKey) := by
  have total : Std.Total fun a b : RgetItem => keyLe sorting a.key b.key = true :=
    ⟨fun a b => keyLe_total sorting a.key b.key⟩
  have trans : IsTrans RgetItem fun a b => keyLe sorting a.key b.key = true :=
    ⟨fun _ _ _ => keyLe_trans sorting⟩
  refine ⟨_, if_neg ordered, SortedMerge.mergeLoop_spec total trans _ ?_ streams sorted⟩
  -- Below an item in range is in range.
  intro a b ab inRange
  exact keyLe_trans sorting ab inRange

end Append

/-! ## Sharded aggregation -/

/-- **Sharded aggregation agrees with one accumulator**: however the rows are split into
shards and batches and the results merged, `count` gives every group the count one
accumulator gives it; `min` and `max` keep the same groups with values `cmp` finds equal,
where `cmp` is a total preorder on the values met; and `append`'s `unshard_impl` with a
sorting adds the items whose key is `key_le` `last_key`, each once, sorted. -/
theorem sharded_aggregation_agrees :
    (∀ (K : Type) [DecidableEq K] (shards : List (List (List (K × List Datum))))
        (single : List (List (K × List Datum))),
      (shards.flatMap shardRows).Perm (shardRows single) →
        ShardsAgree countTerminal (fun merged one => ∀ k, lookup k merged = lookup k one) shards
          single) ∧
    (∀ (K : Type) [DecidableEq K] (version : ReqlVersion) (good : Datum → Prop)
        (f : Datum → Except Error (Option Datum)), CmpPreorderOn version good →
      ∀ (shards : List (List (List (K × List Datum)))) (single : List (List (K × List Datum))),
        (shards.flatMap shardRows).Perm (shardRows single) →
        (∀ p ∈ shardRows single, ValueIn f good p.2) →
        ∀ term ∈ [minTerminal version f, maxTerminal version f],
          ShardsAgree term (OptimaAgree version) shards single) ∧
    ∀ (sorting : Sorting) (lastKey : Btree.StoreKey) (out : List RgetItem)
        (streams : List (List RgetItem)), sorting ≠ .unordered →
      (∀ stream ∈ streams, stream.Pairwise fun a b => keyLe sorting a.key b.key = true) →
      ∃ merged, appendUnshardImpl sorting lastKey out streams = out ++ merged ∧
        merged.Pairwise (fun a b => keyLe sorting a.key b.key = true) ∧
        merged.Perm (streams.flatten.filter fun item => keyLe sorting item.key lastKey) := by
  refine ⟨?_, ?_, ?_⟩
  · intro K _ shards single same
    exact count_agrees_across_shards shards single same
  · intro K _ version good f order shards single same rowsOk
    exact optima_agree_across_shards f order shards single same rowsOk
  · intro sorting lastKey out streams ordered sorted
    exact appendUnshardImpl_sorted_merge sorting ordered lastKey out streams sorted

theorem cmp_null_null (version : ReqlVersion) : cmp version .null .null = .ok 0 := by
  cases version <;> decide +kernel

/-- `cmp` is a total preorder on `null` alone. -/
theorem cmpPreorderOn_null (version : ReqlVersion) : CmpPreorderOn version (· = Datum.null) where
  succeeds a b isNull isNull' := ⟨0, by rw [isNull, isNull']; exact cmp_null_null version⟩
  antisymm a b c c' isNull isNull' found found' := by
    rw [isNull, isNull', cmp_null_null] at found found'
    cases found
    cases found'
    rfl
  trans a b c x y z isNull _ isNull' _ _ found _ _ := by
    rw [isNull, isNull', cmp_null_null] at found
    cases found
    exact le_refl 0

/-- Two shards of a `null` each against one accumulator fed both, and two one-item streams
merged in ascending order. -/
theorem null_shards_agree :
    let shards : List (List (List (Unit × List Datum))) := [[[((), [.null])]], [[((), [.null])]]]
    let single : List (List (Unit × List Datum)) := [[((), [.null, .null])]]
    let item : RgetItem := ⟨Btree.StoreKey.min, none, .null⟩
    ShardsAgree countTerminal (fun merged one => ∀ k, lookup k merged = lookup k one) shards
        single ∧
      (∀ term ∈ [minTerminal .v2_1 fun el => .ok (some el), maxTerminal .v2_1 fun el => .ok (some el)],
        ShardsAgree term (OptimaAgree .v2_1) shards single) ∧
      ∃ merged, appendUnshardImpl .ascending Btree.StoreKey.min [] [[item], [item]] = [] ++ merged ∧
        merged.Pairwise (fun a b => keyLe .ascending a.key b.key = true) ∧
        merged.Perm ([[item], [item]].flatten.filter
          fun item => keyLe .ascending item.key Btree.StoreKey.min) := by
  intro shards single item
  obtain ⟨count, optima, append⟩ := sharded_aggregation_agrees
  have rowsOk : ∀ p ∈ shardRows single, ValueIn (fun el => .ok (some el)) (· = Datum.null) p.2 := by
    intro p member
    have isNull : p = ((), .null) := by simpa [single, shardRows, rowsOf] using member
    exact Or.inr ⟨p.2, rfl, by rw [isNull]⟩
  exact ⟨count Unit shards single (by decide),
    optima Unit .v2_1 (· = Datum.null) _ (cmpPreorderOn_null .v2_1) shards single (by decide)
      rowsOk,
    append .ascending Btree.StoreKey.min [] [[item], [item]] (by decide) (by decide)⟩

end Ql
end RethinkDB
