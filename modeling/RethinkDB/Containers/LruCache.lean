import Mathlib

/-!
# `lru_cache_t`

`containers/lru_cache.hpp` keeps the entries in a list, most recently used first, and a map from
each key to an iterator into the list.  `operator[]` and `find` bump a present key: its pair is
copied to a new node at the front and the map entry is pointed at it.  A new key gets a new
front node holding a default value; past `max_size` the last node is dropped, and its key's map
entry is erased.

An iterator is the `id` of the node it points to: every node the list allocates gets a fresh one,
so an iterator to a node the list no longer holds is one no node has, and following it is the
undefined behaviour the model returns `none` for.

Both `insert` overloads build the node from `std::move(key)` and only then make the map entry
under `key`.  What `key` holds after the move is the parameter `moved`: a copy for a key such as
`int` (`moved = id`), where the cache is a bounded LRU map (`run_refines`); an empty string for
`std::string` in the common standard libraries, where the entry of a new key is made under the
wrong key (`moved_key_misses`).
-/

namespace RethinkDB
namespace Containers

/-- A node of `cache_list_`. -/
structure Node (K V : Type) where
  id : Nat
  key : K
  value : V

/-- `lru_cache_t`: the list, the map from keys to node ids, the next id to allocate, and
`_max`. -/
structure LruCache (K V : Type) where
  cacheList : List (Node K V)
  cacheMap : K → Option Nat
  nextId : Nat
  max : Nat

/-- A call on the cache: `operator[]` with the value assigned through the reference it returns,
if any, or `find`. -/
inductive Op (K V : Type) where
  | index (key : K) (value : Option V)
  | find (key : K)

/-! ## A bounded LRU map -/

/-- What the cache is for: its entries from most to least recently used, and its bound. -/
structure Lru (K V : Type) where
  entries : List (K × V)
  max : Nat

namespace Lru
variable {K V : Type} [DecidableEq K]

/-- The value of `key`, if it has an entry. -/
def lookup (l : Lru K V) (key : K) : Option V := (l.entries.find? (·.1 == key)).map Prod.snd

/-- The entry of `key` made the most recent, with `value`; the least recent beyond the bound
dropped. -/
def touch (l : Lru K V) (key : K) (value : V) : Lru K V :=
  ⟨((key, value) :: l.entries.filter (·.1 != key)).take l.max, l.max⟩

theorem touch_entries (l : Lru K V) (key : K) (value : V) (positive : 0 < l.max) :
    (l.touch key value).entries = (key, value) :: (l.entries.filter (·.1 != key)).take (l.max - 1) := by
  obtain ⟨m, hm⟩ : ∃ m, l.max = m + 1 := ⟨l.max - 1, by omega⟩
  simp [touch, hm]

section Index
variable [Inhabited V]

/-- `operator[]`: the entry made the most recent, with the value assigned, else the value it
had, else the default. -/
def index (l : Lru K V) (key : K) (value : Option V) : Lru K V :=
  l.touch key (value.getD ((l.lookup key).getD default))

/-- `find`: the entry, made the most recent. -/
def find (l : Lru K V) (key : K) : Option (K × V) × Lru K V :=
  match l.lookup key with
  | none => (none, l)
  | some value => (some (key, value), l.touch key value)

def step (l : Lru K V) : Op K V → Lru K V
  | .index key value => l.index key value
  | .find key => (l.find key).2

def run (l : Lru K V) : List (Op K V) → Lru K V
  | [] => l
  | op :: ops => (l.step op).run ops

end Index

end Lru

/-- Among elements with distinct images, the first whose image is that of `x` is `x`. -/
theorem find?_of_mem_nodup {α β : Type} [DecidableEq β] (f : α → β) {l : List α} {x : α}
    (nodup : (l.map f).Nodup) (mem : x ∈ l) : l.find? (fun y => f y == f x) = some x := by
  induction l with
  | nil => simp at mem
  | cons y l ih =>
      rw [List.map_cons, List.nodup_cons] at nodup
      rcases List.mem_cons.mp mem with rfl | mem
      · simp
      · have differ : f y ≠ f x := fun same => nodup.1 (same ▸ List.mem_map_of_mem mem)
        rw [List.find?_cons_of_neg (by simpa using differ)]
        exact ih nodup.2 mem

namespace LruCache

variable {K V : Type} [DecidableEq K]

section Calls
variable [Inhabited V]

/-- The constructor `lru_cache_t(max)`. -/
def empty (max : Nat) : LruCache K V := ⟨[], fun _ => none, 0, max⟩

/-- The node an iterator points to, if the list still holds it. -/
def node? (c : LruCache K V) (id : Nat) : Option (Node K V) :=
  c.cacheList.find? (·.id == id)

/-- `bump`, on the map entry of `key` holding the iterator `id`: the pair is copied to a new node
at the front, the old node erased, and the entry set to the new one. -/
def bump (c : LruCache K V) (key : K) (id : Nat) : Option (LruCache K V) :=
  (c.node? id).map fun node =>
    { c with
      cacheList := ⟨c.nextId, node.key, node.value⟩ :: c.cacheList.filter (·.id != id)
      cacheMap := Function.update c.cacheMap key (some c.nextId)
      nextId := c.nextId + 1 }

/-- `insert(K &&key)`: a front node for the key with a default value, the map entry under what
`key` holds after it was moved into the node, and past `max_size` the last node evicted by its
own key. -/
def insert (moved : K → K) (c : LruCache K V) (key : K) : LruCache K V :=
  let cacheList := ⟨c.nextId, key, default⟩ :: c.cacheList
  let cacheMap := Function.update c.cacheMap (moved key) (some c.nextId)
  if cacheList.length > c.max then
    let last := cacheList.getLast (List.cons_ne_nil _ _)
    ⟨cacheList.dropLast, Function.update cacheMap last.key none, c.nextId + 1, c.max⟩
  else ⟨cacheList, cacheMap, c.nextId + 1, c.max⟩

/-- The assignment of `value`, if any, through the reference `operator[]` returns: the value of
the front node. -/
def assignFront (value : Option V) (c : LruCache K V) : Option (LruCache K V) :=
  match c.cacheList with
  -- with `max_size = 0` the new node is evicted at once and the reference dangles
  | [] => none
  | front :: rest => some { c with cacheList := ⟨front.id, front.key, value.getD front.value⟩ :: rest }

/-- `operator[]`, for an lvalue key (`insert(K(key))` moves a copy of it) and an rvalue key
alike, then the assignment of `value`, if any. -/
def index (moved : K → K) (c : LruCache K V) (key : K) (value : Option V) :
    Option (LruCache K V) :=
  let found := match c.cacheMap key with
    | some id => c.bump key id
    | none => some (c.insert moved key)
  found.bind (assignFront value)

/-- `find`: the pair at the front after the bump, or `end()` (`none`). -/
def find (c : LruCache K V) (key : K) : Option (Option (K × V) × LruCache K V) :=
  match c.cacheMap key with
  | none => some (none, c)
  | some id => (c.bump key id).map fun c => (c.cacheList.head?.map fun n => (n.key, n.value), c)

/-- One call. -/
def step (moved : K → K) (c : LruCache K V) : Op K V → Option (LruCache K V)
  | .index key value => c.index moved key value
  | .find key => (c.find key).map Prod.snd

/-- A sequence of calls, up to the first with undefined behaviour. -/
def run (moved : K → K) (c : LruCache K V) : List (Op K V) → Option (LruCache K V)
  | [] => some c
  | op :: ops => (c.step moved op).bind fun c => run moved c ops

end Calls

/-! ## With copied keys, a bounded LRU map

The invariant (`Inv`) holds between calls: ids and keys each once in the list, the map entry of
every key exactly the node holding it, and at most `max_size` nodes.  Each call keeps it and
does to the entries what `Lru` does (`Inv.index`, `Inv.find`). -/

/-- The entries of the list, in its order. -/
def toLru (c : LruCache K V) : Lru K V := ⟨c.cacheList.map fun n => (n.key, n.value), c.max⟩

/-- What the cache keeps between calls when keys are copied. -/
structure Inv (c : LruCache K V) : Prop where
  ids_nodup : (c.cacheList.map Node.id).Nodup
  keys_nodup : (c.cacheList.map Node.key).Nodup
  fresh : ∀ n ∈ c.cacheList, n.id < c.nextId
  map_iff : ∀ key id, c.cacheMap key = some id ↔ ∃ n ∈ c.cacheList, n.id = id ∧ n.key = key
  bounded : c.cacheList.length ≤ c.max
  positive : 0 < c.max

omit [DecidableEq K] in
theorem Inv.node? {c : LruCache K V} (inv : c.Inv) {n : Node K V} (mem : n ∈ c.cacheList) :
    c.node? n.id = some n :=
  find?_of_mem_nodup Node.id inv.ids_nodup mem

theorem Inv.lookup {c : LruCache K V} (inv : c.Inv) {n : Node K V} (mem : n ∈ c.cacheList) :
    c.toLru.lookup n.key = some n.value := by
  have found := find?_of_mem_nodup Node.key inv.keys_nodup mem
  simp only [Lru.lookup, toLru, List.find?_map]
  simp [found]

theorem Inv.lookup_eq_none {c : LruCache K V} {key : K} (absent : ∀ m ∈ c.cacheList, m.key ≠ key) :
    c.toLru.lookup key = none := by
  simp only [Lru.lookup, toLru, List.find?_map, Option.map_eq_none_iff, List.find?_eq_none]
  intro m mem
  simpa using absent m mem

/-- With the invariant, a node's id and its key each name it. -/
theorem Inv.filter_id {c : LruCache K V} (inv : c.Inv) {n : Node K V} (mem : n ∈ c.cacheList) :
    c.cacheList.filter (·.id != n.id) = c.cacheList.filter (·.key != n.key) := by
  refine List.filter_congr fun m member => ?_
  have byId := List.inj_on_of_nodup_map inv.ids_nodup member mem
  have byKey := List.inj_on_of_nodup_map inv.keys_nodup member mem
  by_cases same : m = n
  · subst same
    rw [bne_self_eq_false, bne_self_eq_false]
  · have differentId : m.id ≠ n.id := fun h => same (byId h)
    have differentKey : m.key ≠ n.key := fun h => same (byKey h)
    rw [bne_iff_ne.mpr differentId, bne_iff_ne.mpr differentKey]

omit [DecidableEq K] in
theorem Inv.absent {c : LruCache K V} (inv : c.Inv) {key : K} (none : c.cacheMap key = none) :
    ∀ m ∈ c.cacheList, m.key ≠ key := by
  intro m mem same
  have := (inv.map_iff key m.id).mpr ⟨m, mem, rfl, same⟩
  simp [none] at this

/-- `c'` is `c` with the entry of `key` made the most recent, holding `value`. -/
def Touched (c c' : LruCache K V) (key : K) (value : V) : Prop :=
  c'.Inv ∧ c'.max = c.max ∧ ∃ id rest, c'.cacheList = ⟨id, key, value⟩ :: rest ∧
    rest.map (fun n => (n.key, n.value)) = (c.toLru.entries.filter (·.1 != key)).take (c.max - 1)

theorem Touched.toLru {c c' : LruCache K V} {key : K} {value : V} (touched : Touched c c' key value) :
    c'.toLru = c.toLru.touch key value := by
  obtain ⟨inv, max, id, rest, front, rest_map⟩ := touched
  have positive : 0 < c.max := max ▸ inv.positive
  cases c' with
  | mk cacheList cacheMap nextId max' =>
      simp only at front max
      subst front max
      rw [LruCache.toLru, Lru.mk.injEq]
      constructor
      · rw [Lru.touch_entries _ _ _ positive, List.map_cons, rest_map]
        rfl
      · rfl


/-- The map of a list with a new front node: the front's entry is made, every other entry is as
it was for the rest of the list. -/
theorem map_iff_front {map : K → Option Nat} (front : Node K V) {rest : List (Node K V)}
    (restKeys : ∀ m ∈ rest, m.key ≠ front.key)
    (old : ∀ key id, key ≠ front.key → (map key = some id ↔ ∃ m ∈ rest, m.id = id ∧ m.key = key)) :
    ∀ key id, Function.update map front.key (some front.id) key = some id ↔
      ∃ m ∈ front :: rest, m.id = id ∧ m.key = key := by
  intro key id
  by_cases atFront : key = front.key
  · subst atFront
    rw [Function.update_self, Option.some.injEq]
    constructor
    · rintro rfl
      exact ⟨front, List.mem_cons_self, rfl, rfl⟩
    · rintro ⟨m, mem, rfl, same⟩
      rcases List.mem_cons.mp mem with rfl | mem
      · rfl
      · exact absurd same (restKeys m mem)
  · rw [Function.update_of_ne atFront, old key id atFront]
    constructor
    · rintro ⟨m, mem, found⟩
      exact ⟨m, List.mem_cons_of_mem front mem, found⟩
    · rintro ⟨m, mem, found⟩
      rcases List.mem_cons.mp mem with rfl | mem
      · exact absurd found.2.symm atFront
      · exact ⟨m, mem, found⟩

omit [DecidableEq K] in
theorem nodup_front {f : Node K V → α} {front : Node K V} {rest list : List (Node K V)}
    (sub : rest.Sublist list) (nodup : (list.map f).Nodup) (new : ∀ m ∈ rest, f m ≠ f front) :
    ((front :: rest).map f).Nodup := by
  rw [List.map_cons, List.nodup_cons]
  refine ⟨fun mem => ?_, nodup.sublist (sub.map f)⟩
  obtain ⟨m, member, same⟩ := List.mem_map.mp mem
  exact new m member same

/-- **`bump` makes the entry of a present key the most recent.** -/
theorem Inv.bump {c : LruCache K V} (inv : c.Inv) {n : Node K V} (mem : n ∈ c.cacheList) :
    ∃ c', c.bump n.key n.id = some c' ∧ Touched c c' n.key n.value := by
  let front : Node K V := ⟨c.nextId, n.key, n.value⟩
  let rest := c.cacheList.filter (·.key != n.key)
  have restKeys : ∀ m ∈ rest, m.key ≠ n.key := fun m member => by
    simpa [rest] using (List.mem_filter.mp member).2
  have shorter : rest.length < c.cacheList.length :=
    List.length_filter_lt_length_iff_exists.mpr ⟨n, mem, by simp⟩
  refine ⟨⟨front :: rest, Function.update c.cacheMap n.key (some c.nextId), c.nextId + 1, c.max⟩,
    ?_, ⟨?_, ?_, ?_, ?_, ?_, inv.positive⟩, rfl, c.nextId, rest, rfl, ?_⟩
  · simp [LruCache.bump, inv.node? mem, inv.filter_id mem, front, rest]
  · exact nodup_front List.filter_sublist inv.ids_nodup fun m member =>
      Nat.ne_of_lt (inv.fresh m (List.mem_filter.mp member).1)
  · exact nodup_front List.filter_sublist inv.keys_nodup restKeys
  · intro m member
    rcases List.mem_cons.mp member with rfl | member
    · exact Nat.lt_succ_self _
    · exact Nat.lt_succ_of_lt (inv.fresh m (List.mem_filter.mp member).1)
  · refine map_iff_front front restKeys fun key id other => ?_
    rw [inv.map_iff key id]
    constructor
    · rintro ⟨m, member, found⟩
      exact ⟨m, List.mem_filter.mpr ⟨member, by simpa [found.2] using other⟩, found⟩
    · rintro ⟨m, member, found⟩
      exact ⟨m, (List.mem_filter.mp member).1, found⟩
  · have := inv.bounded
    simp only [List.length_cons]
    omega
  · have bounded := inv.bounded
    have within : (c.cacheList.filter
        ((fun p : K × V => p.1 != n.key) ∘ fun m => (m.key, m.value))).length ≤ c.max - 1 := by
      have : (c.cacheList.filter
          ((fun p : K × V => p.1 != n.key) ∘ fun m => (m.key, m.value))).length = rest.length := rfl
      omega
    rw [LruCache.toLru, List.filter_map, ← List.map_take, List.take_of_length_le within]
    rfl

section Insert
variable [Inhabited V]

/-- **`insert`, where the key is copied, makes an absent key the most recent**, with the default
value, evicting the least recent past the bound. -/
theorem Inv.insert {c : LruCache K V} (inv : c.Inv) {key : K}
    (absent : ∀ m ∈ c.cacheList, m.key ≠ key) : Touched c (c.insert id key) key default := by
  let front : Node K V := ⟨c.nextId, key, default⟩
  have freshFront : ∀ m ∈ c.cacheList, m.id ≠ front.id := fun m member =>
    Nat.ne_of_lt (inv.fresh m member)
  have unchanged : c.toLru.entries.filter (·.1 != key) = c.toLru.entries := by
    refine List.filter_eq_self.mpr fun p entry => ?_
    obtain ⟨m, member, rfl⟩ := List.mem_map.mp entry
    simpa using absent m member
  have bounded := inv.bounded
  have positive := inv.positive
  unfold LruCache.insert
  dsimp only
  split_ifs with full
  · -- the list is full: its last node is evicted, and its key's entry erased
    have nonempty : c.cacheList ≠ [] := by
      intro empty
      simp [empty] at full
      omega
    let last := c.cacheList.getLast nonempty
    have lastMem : last ∈ c.cacheList := List.getLast_mem nonempty
    have split := List.dropLast_append_getLast nonempty
    have lastGone : last ∉ c.cacheList.dropLast := by
      have nodup := List.Nodup.of_map Node.id inv.ids_nodup
      rw [← split, List.nodup_append] at nodup
      exact fun member => nodup.2.2 last member last (List.mem_singleton_self _) rfl
    have restKeys : ∀ m ∈ c.cacheList.dropLast, m.key ≠ key := fun m member =>
      absent m (List.mem_of_mem_dropLast member)
    have lastKey : last.key ≠ key := absent last lastMem
    refine ⟨⟨?_, ?_, ?_, ?_, ?_, inv.positive⟩, rfl, c.nextId, c.cacheList.dropLast, ?_, ?_⟩
    · rw [List.dropLast_cons_of_ne_nil nonempty]
      exact nodup_front (List.dropLast_sublist _) inv.ids_nodup fun m member =>
        freshFront m (List.mem_of_mem_dropLast member)
    · rw [List.dropLast_cons_of_ne_nil nonempty]
      exact nodup_front (List.dropLast_sublist _) inv.keys_nodup restKeys
    · intro m member
      rw [List.dropLast_cons_of_ne_nil nonempty] at member
      rcases List.mem_cons.mp member with rfl | member
      · exact Nat.lt_succ_self _
      · exact Nat.lt_succ_of_lt (inv.fresh m (List.mem_of_mem_dropLast member))
    · rw [List.dropLast_cons_of_ne_nil nonempty, List.getLast_cons nonempty, id,
        Function.update_comm lastKey.symm]
      refine map_iff_front front restKeys fun key' id' other => ?_
      by_cases evicted : key' = last.key
      · subst evicted
        rw [Function.update_self]
        constructor
        · intro impossible
          exact absurd impossible (by simp)
        · rintro ⟨m, member, -, same⟩
          have := List.inj_on_of_nodup_map inv.keys_nodup (List.mem_of_mem_dropLast member) lastMem
            same
          exact absurd (this ▸ member) lastGone
      · rw [Function.update_of_ne evicted, inv.map_iff key' id']
        constructor
        · rintro ⟨m, member, found⟩
          have notLast : m ≠ last := fun same => evicted (same ▸ found.2.symm)
          rw [← split] at member
          rcases List.mem_append.mp member with member | member
          · exact ⟨m, member, found⟩
          · exact absurd (List.mem_singleton.mp member) notLast
        · rintro ⟨m, member, found⟩
          exact ⟨m, List.mem_of_mem_dropLast member, found⟩
    · simp only [List.dropLast_cons_of_ne_nil nonempty, List.length_cons, List.length_dropLast]
      omega
    · rw [List.dropLast_cons_of_ne_nil nonempty]
    · rw [unchanged, LruCache.toLru, List.map_dropLast, List.dropLast_eq_take, List.length_map]
      simp only [List.length_cons] at full
      congr 1
      omega
  · -- room for one more
    refine ⟨⟨?_, ?_, ?_, ?_, ?_, inv.positive⟩, rfl, c.nextId, c.cacheList, rfl, ?_⟩
    · exact nodup_front (List.Sublist.refl _) inv.ids_nodup freshFront
    · exact nodup_front (List.Sublist.refl _) inv.keys_nodup absent
    · intro m member
      rcases List.mem_cons.mp member with rfl | member
      · exact Nat.lt_succ_self _
      · exact Nat.lt_succ_of_lt (inv.fresh m member)
    · exact map_iff_front front absent fun key' id' _ => inv.map_iff key' id'
    · simpa using full
    · rw [unchanged, List.take_of_length_le]
      · rfl
      · simp only [List.length_cons, gt_iff_lt, not_lt] at full
        simp only [LruCache.toLru, List.length_map]
        omega

omit [Inhabited V] in
/-- The assignment through the reference changes the front node's value only. -/
theorem Touched.assign {c c' : LruCache K V} {key : K} {value : V} (touched : Touched c c' key value)
    (assigned : Option V) :
    ∃ c'', c'.assignFront assigned = some c'' ∧ Touched c c'' key (assigned.getD value) := by
  obtain ⟨⟨ids, keys, fresh, map_iff, bounded, positive⟩, max, id, rest, front, restMap⟩ := touched
  refine ⟨{ c' with cacheList := ⟨id, key, assigned.getD value⟩ :: rest }, by simp [assignFront, front],
    ⟨?_, ?_, ?_, ?_, ?_, positive⟩, max, id, rest, rfl, restMap⟩
  all_goals rw [front] at ids keys fresh map_iff bounded
  · simpa using ids
  · simpa using keys
  · intro m member
    rcases List.mem_cons.mp member with rfl | member
    · exact fresh ⟨id, key, value⟩ List.mem_cons_self
    · exact fresh m (List.mem_cons_of_mem _ member)
  · intro key' id'
    rw [map_iff key' id']
    simp
  · simpa using bounded

/-- **`operator[]` does what the LRU map's `index` does**, and keeps the invariant. -/
theorem Inv.index {c : LruCache K V} (inv : c.Inv) (key : K) (value : Option V) :
    ∃ c', c.index id key value = some c' ∧ c'.Inv ∧ c'.toLru = c.toLru.index key value := by
  -- the entry is bumped if the key is present and inserted if not; the assignment follows
  obtain ⟨found, touchedAt, current⟩ : ∃ found, (match c.cacheMap key with
      | some id => c.bump key id
      | none => some (c.insert id key)) = some found ∧
      ∃ current, Touched c found key current ∧ (c.toLru.lookup key).getD default = current := by
    cases entry : c.cacheMap key with
    | some i =>
        obtain ⟨n, mem, rfl, rfl⟩ := (inv.map_iff key i).mp entry
        obtain ⟨found, bumped, touched⟩ := inv.bump mem
        exact ⟨found, bumped, n.value, touched, by rw [inv.lookup mem]; rfl⟩
    | none =>
        have absent := inv.absent entry
        exact ⟨_, rfl, default, inv.insert absent, by rw [Inv.lookup_eq_none absent]; rfl⟩
  obtain ⟨current, touched, looked⟩ := current
  obtain ⟨assigned, assignedEq, touched'⟩ := touched.assign value
  refine ⟨assigned, ?_, touched'.1, ?_⟩
  · simp only [LruCache.index, touchedAt, Option.bind_some, assignedEq]
  · rw [touched'.toLru, Lru.index, looked]

omit [Inhabited V] in
/-- **`find` returns what the LRU map's `find` returns**, and keeps the invariant. -/
theorem Inv.find {c : LruCache K V} (inv : c.Inv) (key : K) :
    ∃ c', c.find key = some ((c.toLru.find key).1, c') ∧ c'.Inv ∧ c'.toLru = (c.toLru.find key).2 := by
  cases entry : c.cacheMap key with
  | none =>
      have looked := Inv.lookup_eq_none (inv.absent entry)
      exact ⟨c, by simp [LruCache.find, entry, Lru.find, looked], inv, by simp [Lru.find, looked]⟩
  | some i =>
      obtain ⟨n, mem, rfl, rfl⟩ := (inv.map_iff key i).mp entry
      obtain ⟨found, bumped, touched⟩ := inv.bump mem
      obtain ⟨id, rest, front, -⟩ := touched.2.2
      refine ⟨found, ?_, touched.1, ?_⟩
      · simp [LruCache.find, entry, bumped, front, Lru.find, inv.lookup mem]
      · rw [touched.toLru]
        simp [Lru.find, inv.lookup mem]

theorem Inv.step {c : LruCache K V} (inv : c.Inv) (op : Op K V) :
    ∃ c', c.step id op = some c' ∧ c'.Inv ∧ c'.toLru = c.toLru.step op := by
  cases op with
  | index key value => exact inv.index key value
  | find key =>
      obtain ⟨c', found, inv', refines⟩ := inv.find key
      exact ⟨c', by simp [LruCache.step, found], inv', refines⟩

/-- **With copied keys, every run is defined, keeps the invariant, and is a run of the LRU map.** -/
theorem run_refines (ops : List (Op K V)) :
    ∀ c : LruCache K V, c.Inv →
      ∃ c', c.run id ops = some c' ∧ c'.Inv ∧ c'.toLru = c.toLru.run ops := by
  induction ops with
  | nil => exact fun c inv => ⟨c, rfl, inv, rfl⟩
  | cons op ops ih =>
      intro c inv
      obtain ⟨stepped, stepEq, inv', refines⟩ := inv.step op
      obtain ⟨final, runEq, invFinal, refinesFinal⟩ := ih stepped inv'
      refine ⟨final, by simp [LruCache.run, stepEq, runEq], invFinal, ?_⟩
      rw [refinesFinal, refines]
      rfl

omit [DecidableEq K] [Inhabited V] in
theorem empty_inv {max : Nat} (positive : 0 < max) : (empty max : LruCache K V).Inv :=
  ⟨List.nodup_nil, List.nodup_nil, by simp [empty], by simp [empty], by simp [empty], positive⟩

end Insert


/-! ## A moved-from key -/

section Moved
variable [Inhabited V]


/-- **The entry of a new key is made under the moved-from key**: right after `operator[](key)`
on an empty cache, `find(key)` returns `end()`, and `find` of what the move left in `key` returns
the node of `key`. -/
theorem moved_key_misses (moved : K → K) {max : Nat} (positive : 0 < max) (key : K) (value : V)
    (stale : moved key ≠ key) :
    ∃ c, (empty max).index moved key (some value) = some c ∧ c.find key = some (none, c) ∧
      ((c.find (moved key)).map Prod.fst) = some (some (key, value)) := by
  refine ⟨⟨[⟨0, key, value⟩], Function.update (fun _ => none) (moved key) (some 0), 1, max⟩,
    ?_, ?_, ?_⟩
  · simp [index, empty, insert, assignFront, Nat.not_lt.mpr positive]
  · simp [find, Function.update_of_ne stale.symm]
  · simp [find, bump, node?]

theorem moved_key_misses_for_strings :
    0 < 16 ∧ (fun _ : String => "") "a" ≠ "a" ∧
      ∃ c, (empty 16).index (fun _ : String => "") "a" (some (7 : Nat)) = some c ∧
        c.find "a" = some (none, c) ∧
        ((c.find ((fun _ : String => "") "a")).map Prod.fst) = some (some ("a", 7)) :=
  ⟨by decide, by decide, moved_key_misses (fun _ : String => "") (by decide) "a" 7 (by decide)⟩

end Moved

end LruCache
end Containers
end RethinkDB
