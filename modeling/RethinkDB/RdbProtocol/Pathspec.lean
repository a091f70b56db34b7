import RethinkDB.RdbProtocol.Merge

/-!
# Path specifications: `pluck`, `without` and `has_fields`

A `pathspec_t` (rdb_protocol/pathspec.cc) names fields of an object: a field name, a vector
of paths, or a map from field names to the paths below them.  `pathspec_t(datum_t)` reads it
off a datum: a string is a field name, an array a vector, and an object a vector of its
fields whose value is `true` followed by a map of the others, where a vector of one path is
that path.  `project` keeps the paths of a pathspec (`pluck`), `unproject` removes them
(`without`), and `contains` says whether all of them are there (`has_fields`).

`project` on a vector merges the objects it projects for each entry with `overwrite`, so a
later entry that selects the same top-level field replaces what an earlier one kept.  The
array `[{a: {b: true}}, {a: {c: true}}]` reads as such a vector, and `pluck` with it keeps
only `a.c` (`project_drops_overlapping_paths`).  Where the entries of every vector select
different top-level fields (`Pathspec.disjoint`), the projection of a plain object keeps every
path that was there (`contains_project`), and a pathspec read off nested objects alone is
always so (`ofDatum_pathObject`).  Every field name of a pathspec outside its maps is gone
after `unproject` (`unproject_removes_names`).
-/

namespace RethinkDB
namespace Ql

/-- `pathspec_t`. -/
inductive Pathspec where
  | str (field : List UInt8)
  | vec (paths : List Pathspec)
  | map (fields : List (List UInt8 × Pathspec))
  deriving Repr

/-- `recurse_flag_t`. -/
inductive RecurseFlag where
  | recurse
  | dontRecurse
  deriving DecidableEq, Repr

/-- The error of `pathspec_t(datum_t)`: "Invalid path argument `%s`." -/
inductive PathspecError where
  | invalidPathArgument (path : Datum)
  deriving Repr

namespace Pathspec

/-- The last step of `pathspec_t(datum_t)`: a vector of one path is that path. -/
def ofVec : List Pathspec → Pathspec
  | [path] => path
  | paths => .vec paths

mutual

/-- `pathspec_t(datum_t datum)`. -/
def ofDatum : Datum → Except PathspecError Pathspec
  | .str s => pure (.str s)
  | .array elements => do
      let paths ← ofElements elements
      pure (ofVec paths)
  | .object pairs => do
      let (localVec, localMap) ← ofPairs pairs
      if localVec.isEmpty then pure (.map localMap)
      else if localMap.isEmpty then pure (ofVec localVec)
      else pure (ofVec (localVec ++ [.map localMap]))
  | d => throw (.invalidPathArgument d)

/-- The loop over the elements of an array. -/
def ofElements : List Datum → Except PathspecError (List Pathspec)
  | [] => pure []
  | element :: rest => do
      let path ← ofDatum element
      let paths ← ofElements rest
      pure (path :: paths)

/-- The loop over the pairs of an object: a field whose value is `true` goes to `local_vec`,
every other one to `local_map` with the path its value reads as.  The pairs come in key
order, so `insert` into the map appends. -/
def ofPairs :
    List (List UInt8 × Datum) → Except PathspecError (List Pathspec × List (List UInt8 × Pathspec))
  | [] => pure ([], [])
  | (key, value) :: rest =>
      match value with
      | .bool true => do
          let (localVec, localMap) ← ofPairs rest
          pure (.str key :: localVec, localMap)
      | _ => do
          let path ← ofDatum value
          let (localVec, localMap) ← ofPairs rest
          pure (localVec, (key, path) :: localMap)

end

end Pathspec

/-- `obj_size()` and `get_pair(i)`: only an object has pairs. -/
def Datum.objectPairs : Datum → Except Error (List (List UInt8 × Datum))
  | .object pairs => pure pairs
  | d => throw (.expectedType .rObject d)

/-- A call with `RECURSE` on a value: an array is mapped element by element with
`DONT_RECURSE`, anything else goes to the object branch, `object`. -/
def recursing (object : Datum → Except Error Datum) : Datum → Except Error Datum
  | .array elements => do
      let items ← elements.mapM object
      pure (.array items)
  | datum => object datum

/-! ## `project` -/

section Project

variable (sanitize : Datum → Except Error Datum)

mutual

/-- The branch of `project` that builds an object.  The entries of a vector are projected
with the same flag and the same datum, so they take this branch again. -/
def projectObject : Pathspec → Datum → Except Error Datum
  | .str field, datum => do
      let val ← datum.getField field .noThrow
      let res ← match val with
        | some val => ObjectBuilder.overwrite ⟨[]⟩ field val
        | none => pure ⟨[]⟩
      res.toDatum sanitize
  | .vec paths, datum => do
      let res ← projectVec paths datum ⟨[]⟩
      res.toDatum sanitize
  | .map fields, datum => do
      let res ← projectMap fields datum ⟨[]⟩
      res.toDatum sanitize

/-- The loop over a vector: every pair of each entry's projection is written with
`overwrite`. -/
def projectVec : List Pathspec → Datum → ObjectBuilder → Except Error ObjectBuilder
  | [], _, res => pure res
  | path :: rest, datum, res => do
      let subResult ← projectObject path datum
      let pairs ← subResult.objectPairs
      let res ← pairs.foldlM (fun res pair => res.overwrite pair.1 pair.2) res
      projectVec rest datum res

/-- The loop over a map: a field that is there is projected with `RECURSE` inside a `try`
that drops the field on any `datum_exc_t`. -/
def projectMap : List (List UInt8 × Pathspec) → Datum → ObjectBuilder → Except Error ObjectBuilder
  | [], _, res => pure res
  | (field, path) :: rest, datum, res => do
      let val ← datum.getField field .noThrow
      let res := match val with
        | some val =>
            match (do
                let subResult ← recursing (projectObject path) val
                res.overwrite field subResult : Except Error ObjectBuilder) with
            | .ok written => written
            | .error _ => res
        | none => res
      projectMap rest datum res

end

/-- `project(datum, pathspec, recurse)`. -/
def project (datum : Datum) (pathspec : Pathspec) : RecurseFlag → Except Error Datum
  | .recurse => recursing (projectObject sanitize pathspec) datum
  | .dontRecurse => projectObject sanitize pathspec datum

end Project

/-! ## `unproject` -/

section Unproject

variable (sanitize : Datum → Except Error Datum)

/-- The branch of `unproject` that builds an object: `datum_object_builder_t res(datum)`, the
helper on it, and `to_datum`. -/
def unprojectObject (helper : ObjectBuilder → ObjectBuilder) (datum : Datum) :
    Except Error Datum := do
  let pairs ← datum.objectPairs
  (helper (ObjectBuilder.ofPairs pairs)).toDatum sanitize

mutual

/-- `unproject_helper`.  Its flag is only ever passed on, so it is left out. -/
def unprojectHelper : Pathspec → ObjectBuilder → ObjectBuilder
  | .str field, datum => (datum.deleteField field).2
  | .vec paths, datum => unprojectVec paths datum
  | .map fields, datum => unprojectMap fields datum

def unprojectVec : List Pathspec → ObjectBuilder → ObjectBuilder
  | [], datum => datum
  | path :: rest, datum => unprojectVec rest (unprojectHelper path datum)

/-- The loop over a map: a field that is there is unprojected with `RECURSE` inside a `try`
that leaves the field as it was on any `datum_exc_t`. -/
def unprojectMap : List (List UInt8 × Pathspec) → ObjectBuilder → ObjectBuilder
  | [], datum => datum
  | (field, path) :: rest, datum =>
      match datum.tryGet field with
      | some val =>
          match (do
              let subResult ← recursing (unprojectObject sanitize (unprojectHelper path)) val
              datum.overwrite field subResult : Except Error ObjectBuilder) with
          | .ok written => unprojectMap rest written
          | .error _ => unprojectMap rest datum
      | none => unprojectMap rest datum

end

/-- `unproject(datum, pathspec, recurse)`. -/
def unproject (datum : Datum) (pathspec : Pathspec) : RecurseFlag → Except Error Datum
  | .recurse => recursing (unprojectObject sanitize (unprojectHelper sanitize pathspec)) datum
  | .dontRecurse => unprojectObject sanitize (unprojectHelper sanitize pathspec) datum

end Unproject

/-! ## `contains` -/

mutual

/-- `contains(datum, pathspec)`: every path is there and not `null`.  Any `datum_exc_t`,
such as `get_field` on a non-object, makes it `false`. -/
def contains : Datum → Pathspec → Bool
  | datum, .str field =>
      match datum.getField field .noThrow with
      | .ok (some val) => val.getType != .rNull
      | _ => false
  | datum, .vec paths => containsVec datum paths
  | datum, .map fields => containsMap datum fields

def containsVec (datum : Datum) : List Pathspec → Bool
  | [] => true
  | path :: rest => contains datum path && containsVec datum rest

def containsMap (datum : Datum) : List (List UInt8 × Pathspec) → Bool
  | [] => true
  | (field, path) :: rest =>
      match datum.getField field .noThrow with
      | .ok (some val) => contains val path && containsMap datum rest
      | _ => false

end

/-! ## The fields a pathspec selects -/

namespace Pathspec

mutual

/-- The top-level fields a projection by the pathspec can keep: a field name, the fields of
every entry of a vector, the keys of a map. -/
def fields : Pathspec → List (List UInt8)
  | .str field => [field]
  | .vec paths => fieldsVec paths
  | .map entries => entries.map Prod.fst

def fieldsVec : List Pathspec → List (List UInt8)
  | [] => []
  | path :: rest => fields path ++ fieldsVec rest

end

mutual

/-- No two entries of a vector select a common top-level field and no map names a field
twice, at every depth. -/
def disjoint : Pathspec → Bool
  | .str _ => true
  | .vec paths => disjointVec paths
  | .map entries => disjointMap entries

def disjointVec : List Pathspec → Bool
  | [] => true
  | path :: rest =>
      disjoint path && (fields path).all (fun field => decide (field ∉ fieldsVec rest)) &&
        disjointVec rest

def disjointMap : List (List UInt8 × Pathspec) → Bool
  | [] => true
  | (field, path) :: rest =>
      disjoint path && decide (field ∉ rest.map Prod.fst) && disjointMap rest

end

end Pathspec

open Pathspec

theorem getField_object_noThrow {m : List (List UInt8 × Datum)} (sorted : SortedKeys m)
    (key : List UInt8) : (Datum.object m).getField key .noThrow = .ok (mapFind key m) := by
  rw [mapFind_eq_fieldOf sorted]
  cases found : fieldOf m key <;> simp [Datum.getField, found, pure, Except.pure]

/-! ## What `contains` reads -/

mutual

/-- `contains` on an object reads only the fields the pathspec selects. -/
theorem contains_congr : ∀ (path : Pathspec) {m m' : List (List UInt8 × Datum)},
    SortedKeys m → SortedKeys m' → (∀ k ∈ path.fields, mapFind k m = mapFind k m') →
      contains (.object m) path = contains (.object m') path
  | .str field, _, _, sorted, sorted', same => by
      simp only [contains, getField_object_noThrow sorted, getField_object_noThrow sorted',
        same field (by simp [fields])]
  | .vec paths, _, _, sorted, sorted', same => by
      simp only [contains]
      exact containsVec_congr paths sorted sorted' (by simpa [fields] using same)
  | .map entries, _, _, sorted, sorted', same => by
      simp only [contains]
      exact containsMap_congr entries sorted sorted' (by simpa [fields] using same)

theorem containsVec_congr : ∀ (paths : List Pathspec) {m m' : List (List UInt8 × Datum)},
    SortedKeys m → SortedKeys m' → (∀ k ∈ fieldsVec paths, mapFind k m = mapFind k m') →
      containsVec (.object m) paths = containsVec (.object m') paths
  | [], _, _, _, _, _ => rfl
  | path :: rest, _, _, sorted, sorted', same => by
      simp only [containsVec]
      rw [contains_congr path sorted sorted' fun k member => same k (by simp [fieldsVec, member]),
        containsVec_congr rest sorted sorted' fun k member => same k (by simp [fieldsVec, member])]

theorem containsMap_congr : ∀ (entries : List (List UInt8 × Pathspec))
    {m m' : List (List UInt8 × Datum)}, SortedKeys m → SortedKeys m' →
      (∀ k ∈ entries.map Prod.fst, mapFind k m = mapFind k m') →
        containsMap (.object m) entries = containsMap (.object m') entries
  | [], _, _, _, _, _ => rfl
  | (field, path) :: rest, _, _, sorted, sorted', same => by
      simp only [containsMap, getField_object_noThrow sorted, getField_object_noThrow sorted',
        same field (by simp)]
      rw [containsMap_congr rest sorted sorted' fun k member => same k (by simp [member])]

end

mutual

/-- A pathspec that selects no field, built of empty vectors and maps, holds of every datum. -/
theorem contains_of_fields_nil : ∀ (path : Pathspec) (datum : Datum), path.fields = [] →
    contains datum path = true
  | .str _, _, selectsNone => by simp [fields] at selectsNone
  | .vec paths, datum, selectsNone => by
      simp only [contains]
      exact containsVec_of_fields_nil paths datum (by simpa [fields] using selectsNone)
  | .map entries, datum, selectsNone => by
      have empty : entries = [] := by simpa [fields] using selectsNone
      subst empty
      rfl

theorem containsVec_of_fields_nil : ∀ (paths : List Pathspec) (datum : Datum),
    fieldsVec paths = [] → containsVec datum paths = true
  | [], _, _ => rfl
  | path :: rest, datum, selectsNone => by
      simp only [fieldsVec, List.append_eq_nil_iff] at selectsNone
      simp only [containsVec, contains_of_fields_nil path datum selectsNone.1,
        containsVec_of_fields_nil rest datum selectsNone.2, Bool.and_self]

end

mutual

/-- `contains` on anything but an object fails unless the pathspec selects no field. -/
theorem fields_nil_of_contains : ∀ (path : Pathspec) {datum : Datum},
    (∀ pairs, datum ≠ .object pairs) → contains datum path = true → path.fields = []
  | .str field, datum, notObject, has => by
      cases datum <;> first
        | exact absurd rfl (notObject _)
        | simp [contains, Datum.getField, throw, throwThe, MonadExceptOf.throw] at has
  | .vec paths, _, notObject, has => by
      simp only [contains] at has
      simpa [fields] using fieldsVec_nil_of_contains paths notObject has
  | .map [], _, _, _ => rfl
  | .map ((field, _) :: _), datum, notObject, has => by
      cases datum <;> first
        | exact absurd rfl (notObject _)
        | simp [contains, containsMap, Datum.getField, throw, throwThe, MonadExceptOf.throw] at has

theorem fieldsVec_nil_of_contains : ∀ (paths : List Pathspec) {datum : Datum},
    (∀ pairs, datum ≠ .object pairs) → containsVec datum paths = true → fieldsVec paths = []
  | [], _, _, _ => rfl
  | path :: rest, _, notObject, has => by
      simp only [containsVec, Bool.and_eq_true] at has
      simp only [fieldsVec, fields_nil_of_contains path notObject has.1,
        fieldsVec_nil_of_contains rest notObject has.2, List.append_nil]

end

/-! ## Projections keep what they select -/

section Preserved

variable (sanitize : Datum → Except Error Datum)

theorem plainKeyed_nil : PlainKeyed [] := ⟨List.Pairwise.nil, fun _ member => by simp at member⟩

/-- The empty builder builds the empty object. -/
theorem toDatum_nil : (ObjectBuilder.mk []).toDatum sanitize = .ok (.object []) :=
  ObjectBuilder.toDatum_of_plainKeys sanitize plainKeyed_nil.sorted plainKeyed_nil.keys

mutual

/-- A pathspec that selects no field projects everything to the empty object. -/
theorem projectObject_of_fields_nil : ∀ (path : Pathspec) (datum : Datum), path.fields = [] →
    projectObject sanitize path datum = .ok (.object [])
  | .str _, _, selectsNone => by simp [fields] at selectsNone
  | .vec paths, datum, selectsNone => by
      rw [projectObject, projectVec_of_fieldsVec_nil paths datum ⟨[]⟩ (by simpa [fields] using selectsNone)]
      exact toDatum_nil sanitize
  | .map entries, datum, selectsNone => by
      have empty : entries = [] := by simpa [fields] using selectsNone
      subst empty
      rw [projectObject]
      exact toDatum_nil sanitize

theorem projectVec_of_fieldsVec_nil : ∀ (paths : List Pathspec) (datum : Datum)
    (res : ObjectBuilder), fieldsVec paths = [] → projectVec sanitize paths datum res = .ok res
  | [], _, _, _ => rfl
  | path :: rest, datum, res, selectsNone => by
      simp only [fieldsVec, List.append_eq_nil_iff] at selectsNone
      rw [projectVec, projectObject_of_fields_nil path datum selectsNone.1]
      exact projectVec_of_fieldsVec_nil rest datum res selectsNone.2

end

/-- Mapping a function that succeeds on every element succeeds. -/
theorem mapM_ok {f : Datum → Except Error Datum} :
    ∀ {items : List Datum}, (∀ item ∈ items, ∃ out, f item = .ok out) → ∃ outs, items.mapM f = .ok outs
  | [], _ => ⟨[], rfl⟩
  | item :: rest, succeeds => by
      obtain ⟨out, first⟩ := succeeds item (List.mem_cons_self ..)
      obtain ⟨outs, others⟩ := mapM_ok fun other member => succeeds other (List.mem_cons_of_mem _ member)
      refine ⟨out :: outs, ?_⟩
      rw [List.mapM_cons, first]
      simp only [bind, Except.bind, others, pure, Except.pure]

/-- `project(val, path, RECURSE)` on a value that has the paths: an array can only have paths
that select nothing, and every element projects to the empty object; anything else is the
object branch. -/
theorem recursing_spec {path : Pathspec} {val : Datum} (has : contains val path = true)
    (object : (∀ items, val ≠ .array items) →
      ∃ m, projectObject sanitize path val = .ok (.object m) ∧ contains (.object m) path = true) :
    ∃ sub, recursing (projectObject sanitize path) val = .ok sub ∧ contains sub path = true := by
  cases val with
  | array items =>
    have selectsNone := fields_nil_of_contains path (fun _ => Datum.noConfusion) has
    obtain ⟨outs, mapped⟩ := @mapM_ok (projectObject sanitize path) items fun item _ =>
      ⟨_, projectObject_of_fields_nil sanitize path item selectsNone⟩
    refine ⟨.array outs, ?_, contains_of_fields_nil path _ selectsNone⟩
    simp only [recursing, mapped, bind, Except.bind, pure, Except.pure]
  | _ =>
    obtain ⟨m, projected, hasAll⟩ := object fun _ => Datum.noConfusion
    exact ⟨.object m, projected, hasAll⟩

/-- Writing the pairs of a plain object into a builder with `overwrite`: each of its keys
takes its value, every other key keeps its own. -/
theorem foldlM_overwrite : ∀ (pairs : List (List UInt8 × Datum)) {res : ObjectBuilder},
    PlainKeyed pairs → PlainKeyed res.map →
      ∃ res', pairs.foldlM (fun res pair => res.overwrite pair.1 pair.2) res = .ok res' ∧
        PlainKeyed res'.map ∧ ∀ k, mapFind k res'.map = (mapFind k pairs).or (mapFind k res.map)
  | [], res, _, keyed => ⟨res, rfl, keyed, fun k => by simp [mapFind]⟩
  | (key, val) :: rest, res, pairsKeyed, keyed => by
      have keyOk : plainKey key = true := pairsKeyed.keys (key, val) (List.mem_cons_self ..)
      have restKeyed : PlainKeyed rest :=
        ⟨pairsKeyed.sorted.of_cons, fun p member => pairsKeyed.keys p (List.mem_cons_of_mem _ member)⟩
      obtain ⟨res', folded, keyed', found⟩ := foldlM_overwrite rest restKeyed (keyed.assign keyOk val)
      refine ⟨res', ?_, keyed', fun k => ?_⟩
      · rw [List.foldlM_cons, ObjectBuilder.overwrite_of_plainKey keyOk]
        exact folded
      · rw [found k, mapFind_mapAssign, mapFind_cons]
        by_cases same : k = key
        · -- the key of the first pair is no later pair's
          have absent : mapFind k rest = none := by
            rw [mapFind_eq_none_iff]
            intro v member
            have above := List.rel_of_pairwise_cons pairsKeyed.sorted member
            rw [same] at above
            exact List.lt_irrefl _ above
          subst same
          simp [absent]
        · simp [same]

/-- `get_field` on anything but an object fails, and `contains` with it. -/
theorem getField_of_not_object {datum : Datum} (notObject : ∀ pairs, datum ≠ .object pairs)
    (key : List UInt8) : datum.getField key .noThrow = .error (.expectedType .rObject datum) := by
  cases datum <;> first
    | exact absurd rfl (notObject _)
    | rfl

mutual

/-- The projection of a plain datum by a disjoint pathspec that it has is a plain object with
only the selected fields, and it has the pathspec too. -/
theorem projectObject_spec : ∀ (path : Pathspec) {datum : Datum}, datum.plain = true →
    path.disjoint = true → contains datum path = true →
      ∃ m, projectObject sanitize path datum = .ok (.object m) ∧ PlainKeyed m ∧
        (∀ k, mapFind k m ≠ none → k ∈ path.fields) ∧ contains (.object m) path = true
  | .str field, datum, plain, _, has => by
      by_cases isObject : ∃ pairs, datum = .object pairs
      · obtain ⟨pairs, rfl⟩ := isObject
        have keyed := PlainKeyed.of_plain plain
        rw [contains, getField_object_noThrow keyed.sorted] at has
        cases found : mapFind field pairs with
        | none => rw [found] at has; cases has
        | some val =>
          rw [found] at has
          have keyOk : plainKey field = true := keyed.keys _ (mem_of_mapFind_eq_some found)
          have single : PlainKeyed [(field, val)] := plainKeyed_nil.assign keyOk val
          refine ⟨[(field, val)], ?_, single, fun k present => ?_, ?_⟩
          · rw [projectObject, getField_object_noThrow keyed.sorted, found]
            simp only [bind, Except.bind, ObjectBuilder.overwrite_of_plainKey keyOk]
            exact ObjectBuilder.toDatum_of_plainKeys sanitize single.sorted single.keys
          · by_contra other
            rw [mapFind_cons, if_neg (by simpa [fields] using other)] at present
            exact present rfl
          · rw [contains, getField_object_noThrow single.sorted, mapFind_cons, if_pos rfl]
            exact has
      · have notObject : ∀ pairs, datum ≠ .object pairs := fun pairs same => isObject ⟨pairs, same⟩
        simp [contains, getField_of_not_object notObject] at has
  | .vec paths, datum, plain, disjointPaths, has => by
      simp only [contains] at has
      obtain ⟨res, projected, keyed, outside, hasAll⟩ := projectVec_spec paths plain
        disjointPaths has (plainKeyed_nil : PlainKeyed (ObjectBuilder.mk []).map) (fun _ _ => rfl)
      refine ⟨res.map, ?_, keyed, fun k present => ?_, ?_⟩
      · rw [projectObject, projected]
        exact ObjectBuilder.toDatum_of_plainKeys sanitize keyed.sorted keyed.keys
      · by_contra notSelected
        exact present (outside k (by simpa [fields] using notSelected))
      · simpa only [contains] using hasAll
  | .map entries, datum, plain, disjointEntries, has => by
      simp only [contains] at has
      obtain ⟨res, projected, keyed, outside, hasAll⟩ := projectMap_spec entries plain
        disjointEntries has (plainKeyed_nil : PlainKeyed (ObjectBuilder.mk []).map)
      refine ⟨res.map, ?_, keyed, fun k present => ?_, ?_⟩
      · rw [projectObject, projected]
        exact ObjectBuilder.toDatum_of_plainKeys sanitize keyed.sorted keyed.keys
      · by_contra notSelected
        exact present (outside k (by simpa [fields] using notSelected))
      · simpa only [contains] using hasAll

/-- The loop over a vector, from a builder that holds none of the vector's fields: each entry
writes only its own fields, so no later one overwrites them. -/
theorem projectVec_spec : ∀ (paths : List Pathspec) {datum : Datum} {res : ObjectBuilder},
    datum.plain = true → disjointVec paths = true → containsVec datum paths = true →
      PlainKeyed res.map → (∀ k ∈ fieldsVec paths, mapFind k res.map = none) →
        ∃ res', projectVec sanitize paths datum res = .ok res' ∧ PlainKeyed res'.map ∧
          (∀ k, k ∉ fieldsVec paths → mapFind k res'.map = mapFind k res.map) ∧
            containsVec (.object res'.map) paths = true
  | [], _, res, _, _, _, keyed, _ => ⟨res, rfl, keyed, fun _ _ => rfl, rfl⟩
  | path :: rest, datum, res, plain, disjointPaths, has, keyed, fresh => by
      simp only [disjointVec, Bool.and_eq_true, List.all_eq_true, decide_eq_true_eq] at disjointPaths
      obtain ⟨⟨disjointPath, apart⟩, disjointRest⟩ := disjointPaths
      simp only [containsVec, Bool.and_eq_true] at has
      obtain ⟨m, projected, mKeyed, within, hasPath⟩ :=
        projectObject_spec path plain disjointPath has.1
      obtain ⟨written, folded, writtenKeyed, writtenFind⟩ := foldlM_overwrite m mKeyed keyed
      have freshPath : ∀ k ∈ path.fields, mapFind k res.map = none := fun k member =>
        fresh k (by simp [fieldsVec, member])
      -- a field the entry did not write is still as it was
      have unwritten : ∀ k, k ∉ path.fields → mapFind k written.map = mapFind k res.map := by
        intro k notSelected
        have absent : mapFind k m = none := by
          by_contra present
          exact notSelected (within k present)
        rw [writtenFind k, absent, Option.none_or]
      have freshRest : ∀ k ∈ fieldsVec rest, mapFind k written.map = none := by
        intro k member
        rw [unwritten k fun inPath => apart k inPath member]
        exact fresh k (by simp [fieldsVec, member])
      obtain ⟨res', projectedRest, resKeyed, outside, hasRest⟩ :=
        projectVec_spec rest plain disjointRest has.2 writtenKeyed freshRest
      refine ⟨res', ?_, resKeyed, fun k notSelected => ?_, ?_⟩
      · rw [projectVec, projected]
        simp only [bind, Except.bind, Datum.objectPairs, pure, Except.pure, folded]
        exact projectedRest
      · simp only [fieldsVec, List.mem_append, not_or] at notSelected
        rw [outside k notSelected.2, unwritten k notSelected.1]
      · -- the entry's own fields hold what its projection wrote
        have kept : ∀ k ∈ path.fields, mapFind k res'.map = mapFind k m := by
          intro k member
          rw [outside k (apart k member), writtenFind k, freshPath k member, Option.or_none]
        simp only [containsVec, Bool.and_eq_true]
        exact ⟨(contains_congr path resKeyed.sorted mKeyed.sorted kept).trans hasPath, hasRest⟩

/-- The loop over a map: each entry writes its own field, which no later entry names. -/
theorem projectMap_spec : ∀ (entries : List (List UInt8 × Pathspec)) {datum : Datum}
    {res : ObjectBuilder}, datum.plain = true → disjointMap entries = true →
      containsMap datum entries = true → PlainKeyed res.map →
        ∃ res', projectMap sanitize entries datum res = .ok res' ∧ PlainKeyed res'.map ∧
          (∀ k, k ∉ entries.map Prod.fst → mapFind k res'.map = mapFind k res.map) ∧
            containsMap (.object res'.map) entries = true
  | [], _, res, _, _, _, keyed => ⟨res, rfl, keyed, fun _ _ => rfl, rfl⟩
  | (field, path) :: rest, datum, res, plain, disjointEntries, has, keyed => by
      simp only [disjointMap, Bool.and_eq_true, decide_eq_true_eq] at disjointEntries
      obtain ⟨⟨disjointPath, fresh⟩, disjointRest⟩ := disjointEntries
      by_cases isObject : ∃ pairs, datum = .object pairs
      · obtain ⟨pairs, rfl⟩ := isObject
        have pairsKeyed := PlainKeyed.of_plain plain
        simp only [containsMap, getField_object_noThrow pairsKeyed.sorted] at has
        cases found : mapFind field pairs with
        | none => rw [found] at has; cases has
        | some val =>
          rw [found, Bool.and_eq_true] at has
          have keyOk : plainKey field = true := pairsKeyed.keys _ (mem_of_mapFind_eq_some found)
          have valPlain := plain_of_mapFind plain found
          obtain ⟨sub, recursed, hasSub⟩ := recursing_spec sanitize has.1 fun _ => by
            obtain ⟨m, projected, -, -, hasM⟩ := projectObject_spec path valPlain disjointPath has.1
            exact ⟨m, projected, hasM⟩
          have step : projectMap sanitize ((field, path) :: rest) (.object pairs) res =
              projectMap sanitize rest (.object pairs) ⟨mapAssign field sub res.map⟩ := by
            rw [projectMap, getField_object_noThrow pairsKeyed.sorted, found]
            simp only [bind, Except.bind, recursed, ObjectBuilder.overwrite_of_plainKey keyOk]
          obtain ⟨res', projectedRest, resKeyed, outside, hasRest⟩ :=
            projectMap_spec rest plain disjointRest has.2 (keyed.assign keyOk sub)
          refine ⟨res', step.trans projectedRest, resKeyed, fun k notSelected => ?_, ?_⟩
          · simp only [List.map_cons, List.mem_cons, not_or] at notSelected
            rw [outside k notSelected.2]
            exact (mapFind_mapAssign res.map).trans (if_neg notSelected.1)
          · have kept : mapFind field res'.map = some sub := by
              rw [outside field fresh]
              exact (mapFind_mapAssign res.map).trans (if_pos rfl)
            simp only [containsMap, getField_object_noThrow resKeyed.sorted, kept, hasSub, hasRest,
              Bool.and_self]
      · have notObject : ∀ pairs, datum ≠ .object pairs := fun pairs same => isObject ⟨pairs, same⟩
        simp [containsMap, getField_of_not_object notObject] at has

end

/-- `pluck` of a plain object by a disjoint pathspec keeps every path the object has. -/
theorem contains_project {datum : Datum} {path : Pathspec} (plain : datum.plain = true)
    (disjointPath : path.disjoint = true) (has : contains datum path = true) :
    ∃ result, project sanitize datum path .dontRecurse = .ok result ∧
      contains result path = true := by
  obtain ⟨m, projected, -, -, hasAll⟩ := projectObject_spec sanitize path plain disjointPath has
  exact ⟨.object m, projected, hasAll⟩

end Preserved

/-! ## Paths read off nested objects are disjoint -/

mutual

/-- A nested object of paths: a field name, or an object in key order whose values are
`true` or again nested objects of paths. -/
def Datum.pathObject : Datum → Bool
  | .str _ => true
  | .object pairs => decide (SortedKeys pairs) && pathObjectPairs pairs
  | _ => false

def pathObjectPairs : List (List UInt8 × Datum) → Bool
  | [] => true
  | (_, value) :: rest => (value == .bool true || value.pathObject) && pathObjectPairs rest

end

theorem fieldsVec_append (front back : List Pathspec) :
    fieldsVec (front ++ back) = fieldsVec front ++ fieldsVec back := by
  induction front with
  | nil => rfl
  | cons path rest ih => simp [fieldsVec, ih]

theorem fieldsVec_strs (keys : List (List UInt8)) : fieldsVec (keys.map .str) = keys := by
  induction keys with
  | nil => rfl
  | cons key rest ih => simp [fieldsVec, fields, ih]

/-- A vector of field names followed by other paths is disjoint when the names are distinct,
none is a field of the others, and the others are disjoint. -/
theorem disjointVec_strs_append (keys : List (List UInt8)) (back : List Pathspec) :
    disjointVec (keys.map .str ++ back) = true ↔
      keys.Nodup ∧ (∀ k ∈ keys, k ∉ fieldsVec back) ∧ disjointVec back = true := by
  induction keys with
  | nil => simp
  | cons key rest ih =>
    simp only [List.map_cons, List.cons_append, disjointVec, disjoint, fields, Bool.true_and,
      List.all_cons, List.all_nil, Bool.and_true, Bool.and_eq_true, decide_eq_true_eq,
      fieldsVec_append, fieldsVec_strs, List.mem_append, not_or, ih, List.nodup_cons,
      List.forall_mem_cons]
    tauto

theorem disjoint_ofVec (paths : List Pathspec) : (ofVec paths).disjoint = disjointVec paths := by
  match paths with
  | [path] => simp [ofVec, disjointVec, fieldsVec]
  | [] => rfl
  | _ :: _ :: _ => rfl

/-- A field whose value is not `true` goes to the map, with the path its value reads as. -/
theorem ofPairs_cons_of_ne {key : List UInt8} {value : Datum} {rest : List (List UInt8 × Datum)}
    {path : Pathspec} {localVec : List Pathspec} {localMap : List (List UInt8 × Pathspec)}
    (notTrue : value ≠ .bool true) (read : Pathspec.ofDatum value = .ok path)
    (restRead : Pathspec.ofPairs rest = .ok (localVec, localMap)) :
    Pathspec.ofPairs ((key, value) :: rest) = .ok (localVec, (key, path) :: localMap) := by
  cases value with
  | bool b =>
    cases b
    · simp only [Pathspec.ofPairs, bind, Except.bind, read, restRead, pure, Except.pure]
    · exact absurd rfl notTrue
  | _ => simp only [Pathspec.ofPairs, bind, Except.bind, read, restRead, pure, Except.pure]

/-- The keys `pathspec_t(datum_t)` sorts out of an object's pairs: those with value `true`
become field names of the vector, the others keys of the map, and each key lands once. -/
theorem ofPairs_spec : ∀ (pairs : List (List UInt8 × Datum)), SortedKeys pairs →
    pathObjectPairs pairs = true →
      (∀ p ∈ pairs, p.2 ≠ .bool true → ∃ path, Pathspec.ofDatum p.2 = .ok path ∧ path.disjoint = true) →
      ∃ named others, Pathspec.ofPairs pairs = .ok (named.map .str, others) ∧
        (named ++ others.map Prod.fst).Nodup ∧ (∀ k ∈ named ++ others.map Prod.fst, ∃ v, (k, v) ∈ pairs) ∧
          disjointMap others = true
  | [], _, _, _ => ⟨[], [], rfl, List.nodup_nil, fun _ member => by simp at member, rfl⟩
  | (key, value) :: rest, sorted, objects, paths => by
      simp only [pathObjectPairs, Bool.and_eq_true] at objects
      obtain ⟨named, others, restPairs, nodup, within, disjointOthers⟩ :=
        ofPairs_spec rest sorted.of_cons objects.2 fun p member => paths p (List.mem_cons_of_mem _ member)
      -- the first key is below every later one, so it is none of theirs
      have fresh : key ∉ named ++ others.map Prod.fst := by
        intro member
        obtain ⟨v, later⟩ := within key member
        have above := List.rel_of_pairwise_cons sorted later
        exact List.lt_irrefl _ above
      by_cases isTrue : value = .bool true
      · subst isTrue
        refine ⟨key :: named, others, ?_, List.nodup_cons.mpr ⟨fresh, nodup⟩, fun k member => ?_,
          disjointOthers⟩
        · simp only [Pathspec.ofPairs, bind, Except.bind, restPairs, pure, Except.pure, List.map_cons]
        · rcases List.mem_cons.mp member with same | later
          · exact ⟨.bool true, by simp [same]⟩
          · obtain ⟨v, inRest⟩ := within k later
            exact ⟨v, List.mem_cons_of_mem _ inRest⟩
      · obtain ⟨path, read, disjointPath⟩ := paths (key, value) (List.mem_cons_self ..) isTrue
        refine ⟨named, (key, path) :: others, ?_, ?_, fun k member => ?_, ?_⟩
        · exact ofPairs_cons_of_ne isTrue read restPairs
        · simp only [List.map_cons]
          exact List.nodup_middle.mpr (List.nodup_cons.mpr ⟨fresh, nodup⟩)
        · simp only [List.map_cons, List.mem_append, List.mem_cons] at member
          rcases member with inNamed | same | inOthers
          · obtain ⟨v, inRest⟩ := within k (List.mem_append_left _ inNamed)
            exact ⟨v, List.mem_cons_of_mem _ inRest⟩
          · exact ⟨value, by simp [same]⟩
          · obtain ⟨v, inRest⟩ := within k (List.mem_append_right _ inOthers)
            exact ⟨v, List.mem_cons_of_mem _ inRest⟩
        · simp only [disjointMap, disjointPath, disjointOthers, Bool.true_and, Bool.and_true,
            decide_eq_true_eq]
          exact fun member => fresh (List.mem_append_right _ member)

mutual

/-- A nested object of paths reads as a disjoint pathspec. -/
theorem ofDatum_pathObject : ∀ (datum : Datum), datum.pathObject = true →
    ∃ path, Pathspec.ofDatum datum = .ok path ∧ path.disjoint = true
  | .str s, _ => ⟨.str s, rfl, rfl⟩
  | .object pairs, objects => by
      simp only [Datum.pathObject, Bool.and_eq_true, decide_eq_true_eq] at objects
      obtain ⟨named, others, read, nodup, -, disjointOthers⟩ :=
        ofPairs_spec pairs objects.1 objects.2 (ofDatum_pathObjectPairs pairs objects.2)
      have namedNodup := (List.nodup_append.mp nodup).1
      have apart : ∀ k ∈ named, k ∉ others.map Prod.fst := fun k member other =>
        (List.nodup_append.mp nodup).2.2 k member k other rfl
      by_cases noNames : named = []
      · subst noNames
        exact ⟨.map others, by simp [Pathspec.ofDatum, bind, Except.bind, read, pure, Except.pure],
          disjointOthers⟩
      · by_cases noOthers : others = []
        · subst noOthers
          refine ⟨ofVec (named.map .str), ?_, ?_⟩
          · simp [Pathspec.ofDatum, bind, Except.bind, read, pure, Except.pure, noNames]
          · have strs := (disjointVec_strs_append named []).mpr ⟨namedNodup, by simp [fieldsVec], rfl⟩
            rw [disjoint_ofVec]
            simpa using strs
        · refine ⟨ofVec (named.map .str ++ [.map others]), ?_, ?_⟩
          · simp [Pathspec.ofDatum, bind, Except.bind, read, pure, Except.pure, noNames, noOthers]
          · rw [disjoint_ofVec, disjointVec_strs_append]
            refine ⟨namedNodup, fun k member => by simpa [fieldsVec, fields] using apart k member, ?_⟩
            simp [disjointVec, disjoint, disjointOthers, fieldsVec]
  | .minval, objects | .maxval, objects | .null, objects | .bool _, objects | .num _, objects
  | .binary _, objects | .array _, objects => by simp [Datum.pathObject] at objects

theorem ofDatum_pathObjectPairs : ∀ (pairs : List (List UInt8 × Datum)),
    pathObjectPairs pairs = true →
      ∀ p ∈ pairs, p.2 ≠ .bool true → ∃ path, Pathspec.ofDatum p.2 = .ok path ∧ path.disjoint = true
  | [], _, _, member, _ => by simp at member
  | (key, value) :: rest, objects, p, member, notTrue => by
      simp only [pathObjectPairs, Bool.and_eq_true, Bool.or_eq_true, beq_iff_eq] at objects
      rcases List.mem_cons.mp member with same | later
      · subst same
        exact ofDatum_pathObject value (objects.1.resolve_left notTrue)
      · exact ofDatum_pathObjectPairs rest objects.2 p later notTrue

end

/-- `pluck` by a nested object of paths: the pathspec reads off it, and a plain object that
has it keeps it. -/
theorem contains_project_of_pathObject (sanitize : Datum → Except Error Datum)
    {datum pathDatum : Datum} (plain : datum.plain = true) (objects : pathDatum.pathObject = true) :
    ∃ path, Pathspec.ofDatum pathDatum = .ok path ∧
      (contains datum path = true → ∃ result, project sanitize datum path .dontRecurse = .ok result ∧
        contains result path = true) := by
  obtain ⟨path, read, disjointPath⟩ := ofDatum_pathObject pathDatum objects
  exact ⟨path, read, contains_project sanitize plain disjointPath⟩

/-! ## `unproject` removes the field names -/

namespace Pathspec

mutual

/-- The field names of a pathspec outside its maps: the fields `unproject` deletes. -/
def names : Pathspec → List (List UInt8)
  | .str field => [field]
  | .vec paths => namesVec paths
  | .map _ => []

def namesVec : List Pathspec → List (List UInt8)
  | [] => []
  | path :: rest => names path ++ namesVec rest

end

end Pathspec

section Removed

variable (sanitize : Datum → Except Error Datum)

/-- One turn of the loop over a map: the builder is left as it was, or a field that is there
gets a new value. -/
theorem unprojectMap_cons (field : List UInt8) (path : Pathspec)
    (rest : List (List UInt8 × Pathspec)) (datum : ObjectBuilder) :
    unprojectMap sanitize ((field, path) :: rest) datum = unprojectMap sanitize rest datum ∨
      ∃ val sub, mapFind field datum.map = some val ∧
        unprojectMap sanitize ((field, path) :: rest) datum =
          unprojectMap sanitize rest ⟨mapAssign field sub datum.map⟩ := by
  rw [unprojectMap]
  cases found : datum.tryGet field with
  | none => exact Or.inl rfl
  | some val =>
    cases recursed : recursing (unprojectObject sanitize (unprojectHelper sanitize path)) val with
    | error _ => exact Or.inl (by simp only [bind, Except.bind, recursed])
    | ok sub =>
      cases written : datum.overwrite field sub with
      | error _ => exact Or.inl (by simp only [bind, Except.bind, recursed, written])
      | ok written' =>
        right
        have assigned : written' = ⟨mapAssign field sub datum.map⟩ := by
          simp only [ObjectBuilder.overwrite, bind, Except.bind] at written
          split at written
          · cases written
          · simp only [pure, Except.pure, Except.ok.injEq] at written
            exact written.symm
        refine ⟨val, sub, found, ?_⟩
        simp only [bind, Except.bind, recursed, written, assigned]

mutual

/-- `unproject_helper` keeps a builder in key order with plain keys, and adds no field. -/
theorem unprojectHelper_spec : ∀ (path : Pathspec) {datum : ObjectBuilder}, PlainKeyed datum.map →
    PlainKeyed (unprojectHelper sanitize path datum).map ∧
      ∀ k, mapFind k datum.map = none → mapFind k (unprojectHelper sanitize path datum).map = none
  | .str field, datum, keyed => by
      refine ⟨keyed.erase, fun k absent => ?_⟩
      simp only [unprojectHelper, ObjectBuilder.deleteField]
      rw [mapFind_mapErase keyed.sorted]
      split <;> simp [absent]
  | .vec paths, _, keyed => by
      simp only [unprojectHelper]
      exact unprojectVec_spec paths keyed
  | .map entries, _, keyed => by
      simp only [unprojectHelper]
      exact unprojectMap_spec entries keyed

theorem unprojectVec_spec : ∀ (paths : List Pathspec) {datum : ObjectBuilder},
    PlainKeyed datum.map → PlainKeyed (unprojectVec sanitize paths datum).map ∧
      ∀ k, mapFind k datum.map = none → mapFind k (unprojectVec sanitize paths datum).map = none
  | [], _, keyed => ⟨keyed, fun _ absent => absent⟩
  | path :: rest, _, keyed => by
      obtain ⟨pathKeyed, pathAbsent⟩ := unprojectHelper_spec path keyed
      obtain ⟨restKeyed, restAbsent⟩ := unprojectVec_spec rest pathKeyed
      exact ⟨restKeyed, fun k absent => restAbsent k (pathAbsent k absent)⟩

theorem unprojectMap_spec : ∀ (entries : List (List UInt8 × Pathspec)) {datum : ObjectBuilder},
    PlainKeyed datum.map → PlainKeyed (unprojectMap sanitize entries datum).map ∧
      ∀ k, mapFind k datum.map = none → mapFind k (unprojectMap sanitize entries datum).map = none
  | [], _, keyed => ⟨keyed, fun _ absent => absent⟩
  | (field, path) :: rest, datum, keyed => by
      rcases unprojectMap_cons sanitize field path rest datum with same | ⟨val, sub, found, assigned⟩
      · rw [same]
        exact unprojectMap_spec rest keyed
      · -- the field that gets a new value is already there, so its key is plain
        have keyOk : plainKey field = true := keyed.keys _ (mem_of_mapFind_eq_some found)
        obtain ⟨restKeyed, restAbsent⟩ :=
          unprojectMap_spec rest
            (keyed.assign keyOk sub : PlainKeyed (ObjectBuilder.mk (mapAssign field sub datum.map)).map)
        rw [assigned]
        refine ⟨restKeyed, fun k absent => restAbsent k ?_⟩
        have other : k ≠ field := fun same => by rw [same, found] at absent; cases absent
        exact (mapFind_mapAssign datum.map).trans ((if_neg other).trans absent)

end

mutual

/-- Every field name of the pathspec outside its maps is gone after `unproject_helper`. -/
theorem unprojectHelper_removes : ∀ (path : Pathspec) {datum : ObjectBuilder},
    PlainKeyed datum.map → ∀ k ∈ path.names, mapFind k (unprojectHelper sanitize path datum).map = none
  | .str field, _, keyed, k, named => by
      simp only [names, List.mem_singleton] at named
      simp only [unprojectHelper, ObjectBuilder.deleteField]
      rw [mapFind_mapErase keyed.sorted, if_pos named]
  | .vec paths, _, keyed, k, named => by
      simp only [unprojectHelper]
      exact unprojectVec_removes paths keyed k (by simpa [names] using named)
  | .map _, _, _, _, named => by simp [names] at named

theorem unprojectVec_removes : ∀ (paths : List Pathspec) {datum : ObjectBuilder},
    PlainKeyed datum.map → ∀ k ∈ namesVec paths, mapFind k (unprojectVec sanitize paths datum).map = none
  | [], _, _, _, named => by simp [namesVec] at named
  | path :: rest, _, keyed, k, named => by
      simp only [namesVec, List.mem_append] at named
      simp only [unprojectVec]
      rcases named with inPath | inRest
      · -- deleted by this entry, and no later entry adds a field
        exact (unprojectVec_spec sanitize rest (unprojectHelper_spec sanitize path keyed).1).2 k
          (unprojectHelper_removes path keyed k inPath)
      · exact unprojectVec_removes rest (unprojectHelper_spec sanitize path keyed).1 k inRest

end

/-- `without` on a plain object: the result is an object, and none of the field names of the
pathspec outside its maps is a field of it. -/
theorem unproject_removes_names {pairs : List (List UInt8 × Datum)} (path : Pathspec)
    (plain : (Datum.object pairs).plain = true) :
    ∃ m, unproject sanitize (.object pairs) path .dontRecurse = .ok (.object m) ∧
      ∀ k ∈ path.names, (Datum.object m).getField k .noThrow = .ok none := by
  have keyed := PlainKeyed.of_plain plain
  have copied : PlainKeyed (ObjectBuilder.ofPairs pairs).map := by
    rw [ofPairs_map keyed.sorted]
    exact keyed
  have helperKeyed := (unprojectHelper_spec sanitize path copied).1
  refine ⟨(unprojectHelper sanitize path (ObjectBuilder.ofPairs pairs)).map, ?_, fun k named => ?_⟩
  · simp only [unproject, unprojectObject, Datum.objectPairs, bind, Except.bind, pure, Except.pure]
    exact ObjectBuilder.toDatum_of_plainKeys sanitize helperKeyed.sorted helperKeyed.keys
  · rw [getField_object_noThrow helperKeyed.sorted, unprojectHelper_removes sanitize path copied k named]

end Removed

/-! ## Overlapping selections -/

/-- The pluck arguments `{a: {b: true}}, {a: {c: true}}` as one array. -/
def overlappingPaths : Datum :=
  .array [.object [(ascii "a", .object [(ascii "b", .bool true)])],
    .object [(ascii "a", .object [(ascii "c", .bool true)])]]

/-- The object `{a: {b: "x", c: "y"}}`. -/
def nestedObject : Datum :=
  .object [(ascii "a", .object [(ascii "b", .str (ascii "x")), (ascii "c", .str (ascii "y"))])]

theorem project_drops_overlapping_paths (sanitize : Datum → Except Error Datum) :
    Pathspec.ofDatum overlappingPaths =
        .ok (.vec [.map [(ascii "a", .str (ascii "b"))], .map [(ascii "a", .str (ascii "c"))]]) ∧
      contains nestedObject (.vec [.map [(ascii "a", .str (ascii "b"))],
        .map [(ascii "a", .str (ascii "c"))]]) = true ∧
      project sanitize nestedObject (.vec [.map [(ascii "a", .str (ascii "b"))],
        .map [(ascii "a", .str (ascii "c"))]]) .dontRecurse =
        .ok (.object [(ascii "a", .object [(ascii "c", .str (ascii "y"))])]) ∧
      contains (.object [(ascii "a", .object [(ascii "c", .str (ascii "y"))])])
        (.vec [.map [(ascii "a", .str (ascii "b"))], .map [(ascii "a", .str (ascii "c"))]]) = false := by
  -- each entry alone keeps its own subfield of `a`
  have keepB : projectMap sanitize [(ascii "a", .str (ascii "b"))] nestedObject ⟨[]⟩ =
      .ok ⟨[(ascii "a", .object [(ascii "b", .str (ascii "x"))])]⟩ := rfl
  have keepC : projectMap sanitize [(ascii "a", .str (ascii "c"))] nestedObject ⟨[]⟩ =
      .ok ⟨[(ascii "a", .object [(ascii "c", .str (ascii "y"))])]⟩ := rfl
  -- and the second one's `a` overwrites the first one's
  have overwritten : project sanitize nestedObject (.vec [.map [(ascii "a", .str (ascii "b"))],
      .map [(ascii "a", .str (ascii "c"))]]) .dontRecurse =
      .ok (.object [(ascii "a", .object [(ascii "c", .str (ascii "y"))])]) := by
    simp only [project, projectObject, projectVec, keepB, keepC]
    rfl
  exact ⟨rfl, rfl, overwritten, rfl⟩

end Ql
end RethinkDB
