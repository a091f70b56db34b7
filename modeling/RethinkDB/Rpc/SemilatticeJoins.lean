import Mathlib
import RethinkDB.Foundations.Semilattice
import RethinkDB.Foundations.Lexicographic

/-!
# Semilattice joins of the cluster metadata

The cluster metadata is a tree of `std::map`s, `deletable_t`s, `versioned_t`s and records
whose joins are generated field by field by `RDB_MAKE_SEMILATTICE_JOINABLE_n`.  Each
`semilattice_join` below is the source's, on the source's data.  `operator==` is equality
of the Lean values, which is what the source's equalities compute on these types:
`std::map` and `std::set` compare their sorted contents, `deletable_t` its
`boost::optional`, and `versioned_t` and the generated record equalities compare field by
field.

`versioned_t` is the one join that is not lawful on all arguments: two registers with the
same timestamp and tiebreaker but different values join differently in the two orders.
Its laws hold under `Versioned.Coherent`, the invariant that equal stamps carry equal
values.  Every other constructor lifts the coherence of its parts, and the laws with it.
A replica joins each metadata value it receives
(`semilattice_manager_t::join_metadata_locally`), so two replicas that received the same
coherent updates, in any order and with any repetition, hold equal metadata.
-/

namespace RethinkDB
namespace Rpc

open Semilattice

/-! ## `uuid_u` -/

/-- `uuid_u`: sixteen bytes. -/
@[ext] structure UuidU where
  data : List UInt8
  size : data.length = 16
  deriving DecidableEq

namespace UuidU

/-- `operator<(const uuid_u &, const uuid_u &)`: `memcmp` of the sixteen bytes is
negative. -/
def Lt (x y : UuidU) : Prop := Bytes.memcmp x.data y.data 16 < 0

instance : LT UuidU := ⟨Lt⟩

instance (x y : UuidU) : Decidable (x < y) :=
  inferInstanceAs (Decidable (Bytes.memcmp x.data y.data 16 < 0))

/-- On sixteen bytes each, `memcmp` is the lexicographic order. -/
theorem lt_iff_data_lt {x y : UuidU} : x < y ↔ x.data < y.data := by
  have common : min x.data.length y.data.length = 16 := by rw [x.size, y.size]; rfl
  change Bytes.memcmp x.data y.data 16 < 0 ↔ _
  rcases Bytes.memcmp_sign_or_prefix x.data y.data with decided | ⟨zero, isPrefix⟩
  · rw [common] at decided
    rw [← Int.sign_eq_neg_one_iff_neg, decided, Bytes.lexSign_eq_neg_one_iff]
  · -- Of two strings of one length, a prefix is the whole string.
    rw [common] at zero
    have sameLength : x.data.length = y.data.length := by rw [x.size, y.size]
    have same : x.data = y.data := by
      rcases isPrefix with isPrefix | isPrefix
      · exact isPrefix.eq_of_length sameLength
      · exact (isPrefix.eq_of_length sameLength.symm).symm
    rw [zero, same]
    simp [List.lt_irrefl]

theorem lt_irrefl (x : UuidU) : ¬x < x := by
  rw [lt_iff_data_lt]
  exact List.lt_irrefl x.data

theorem lt_trans {x y z : UuidU} (xy : x < y) (yz : y < z) : x < z := by
  rw [lt_iff_data_lt] at *
  exact List.lt_trans xy yz

theorem lt_trichotomy (x y : UuidU) : x < y ∨ x = y ∨ y < x := by
  rcases Bytes.lt_trichotomy x.data y.data with lt | same | gt
  · exact Or.inl (lt_iff_data_lt.mpr lt)
  · exact Or.inr (Or.inl (UuidU.ext same))
  · exact Or.inr (Or.inr (lt_iff_data_lt.mpr gt))

end UuidU

/-! ## `versioned_t` -/

/-- `versioned_t<T>`: a value with the time of its last change and a random tiebreaker.
`time_t` is an integer. -/
@[ext] structure Versioned (T : Type) where
  value : T
  timestamp : Int
  tiebreaker : UuidU
  deriving DecidableEq

namespace Versioned

variable {T : Type}

/-- `semilattice_join(versioned_t<T> *a, const versioned_t<T> &b)`: `b` replaces `a` when it
is later by timestamp, then by tiebreaker. -/
def semilatticeJoin (a b : Versioned T) : Versioned T :=
  if a.timestamp < b.timestamp ∨ (a.timestamp = b.timestamp ∧ a.tiebreaker < b.tiebreaker)
  then b else a

/-- The test of `semilatticeJoin`: `a` is older than `b`. -/
def IsOlder (a b : Versioned T) : Prop :=
  a.timestamp < b.timestamp ∨ (a.timestamp = b.timestamp ∧ a.tiebreaker < b.tiebreaker)

instance : DecidableRel (@IsOlder T) := fun _ _ => inferInstanceAs (Decidable (_ ∨ _))

/-- The invariant under which the join is lawful: equal stamps carry equal values. -/
def Coherent (a b : Versioned T) : Prop :=
  a.timestamp = b.timestamp → a.tiebreaker = b.tiebreaker → a.value = b.value

instance [DecidableEq T] : DecidableRel (@Coherent T) :=
  fun _ _ => inferInstanceAs (Decidable (_ → _ → _))

theorem semilatticeJoin_eq_lastWriterWins (a b : Versioned T) :
    semilatticeJoin a b = lastWriterWins IsOlder a b := rfl

/-- Neither of two versions is older exactly when their stamps are equal. -/
theorem tied_iff {a b : Versioned T} :
    ¬IsOlder a b ∧ ¬IsOlder b a ↔ a.timestamp = b.timestamp ∧ a.tiebreaker = b.tiebreaker := by
  unfold IsOlder
  constructor
  · rintro ⟨notAB, notBA⟩
    have sameTime : a.timestamp = b.timestamp := by omega
    refine ⟨sameTime, ?_⟩
    rcases UuidU.lt_trichotomy a.tiebreaker b.tiebreaker with lt | same | gt
    · exact absurd (Or.inr ⟨sameTime, lt⟩) notAB
    · exact same
    · exact absurd (Or.inr ⟨sameTime.symm, gt⟩) notBA
  · rintro ⟨sameTime, sameTiebreaker⟩
    rw [sameTime, sameTiebreaker]
    exact ⟨by simp [UuidU.lt_irrefl], by simp [UuidU.lt_irrefl]⟩

instance : IsStrictWeakOrder (Versioned T) IsOlder where
  irrefl a := by simp [IsOlder, UuidU.lt_irrefl]
  trans a b c := by
    unfold IsOlder
    rintro (ab | ⟨sameAB, ab⟩) (bc | ⟨sameBC, bc⟩)
    · exact Or.inl (ab.trans bc)
    · exact Or.inl (sameBC ▸ ab)
    · exact Or.inl (sameAB ▸ bc)
    · exact Or.inr ⟨sameAB.trans sameBC, UuidU.lt_trans ab bc⟩
  incomp_trans a b c tiedAB tiedBC := by
    obtain ⟨timeAB, tieAB⟩ := tied_iff.mp tiedAB
    obtain ⟨timeBC, tieBC⟩ := tied_iff.mp tiedBC
    exact tied_iff.mpr ⟨timeAB.trans timeBC, tieAB.trans tieBC⟩

theorem coherent_tieCoherent {a b : Versioned T} (coherent : Coherent a b) :
    TieCoherent IsOlder a b := fun notAB notBA => by
  obtain ⟨sameTime, sameTiebreaker⟩ := tied_iff.mp ⟨notAB, notBA⟩
  exact Versioned.ext (coherent sameTime sameTiebreaker) sameTime sameTiebreaker

theorem semilatticeJoin_laws : JoinLaws (@semilatticeJoin T) Coherent := by
  refine (lastWriterWins_laws : JoinLaws (lastWriterWins (@IsOlder T)) _).mono
    coherent_tieCoherent (fun _ _ _ => rfl) (fun coherent sameTime sameTiebreaker =>
      (coherent sameTime.symm sameTiebreaker.symm).symm) ?_
  intro a b c ac bc
  rcases lastWriterWins_eq_or IsOlder a b with kept | kept <;> rw [kept]
  · exact ac
  · exact bc

end Versioned

/-! ## `deletable_t` -/

/-- `deletable_t<T>`: a `boost::optional<T>` that is empty once the entry is deleted. -/
@[ext] structure Deletable (T : Type) where
  t : Option T
  deriving DecidableEq

namespace Deletable

variable {T : Type} {join : T → T → T} {ValueCoherent : T → T → Prop}

/-- `semilattice_join(deletable_t<T> *a, const deletable_t<T> &b)`: a deleted `b` replaces
`a`, a deleted `a` stays, and otherwise the values are joined. -/
def semilatticeJoin (join : T → T → T) (a b : Deletable T) : Deletable T :=
  match a.t, b.t with
  | _, none => b
  | none, some _ => a
  | some x, some y => ⟨some (join x y)⟩

/-- Two entries are coherent when their values are, where neither is deleted. -/
def Coherent (ValueCoherent : T → T → Prop) (a b : Deletable T) : Prop :=
  OptionCoherent ValueCoherent a.t b.t

@[simp] theorem semilatticeJoin_deleted_right (a : Deletable T) :
    semilatticeJoin join a ⟨none⟩ = ⟨none⟩ := by
  cases a with | mk t => cases t <;> rfl

@[simp] theorem semilatticeJoin_deleted_left (y : T) :
    semilatticeJoin join ⟨none⟩ ⟨some y⟩ = ⟨none⟩ := rfl

@[simp] theorem semilatticeJoin_some_some (x y : T) :
    semilatticeJoin join ⟨some x⟩ ⟨some y⟩ = ⟨some (join x y)⟩ := rfl

@[simp] theorem coherent_mk_mk {a b : Option T} :
    Deletable.Coherent ValueCoherent ⟨a⟩ ⟨b⟩ ↔ OptionCoherent ValueCoherent a b := Iff.rfl

/-- Deletion absorbs, and the laws of the values lift. -/
theorem semilatticeJoin_laws (laws : JoinLaws join ValueCoherent) :
    JoinLaws (semilatticeJoin join) (Deletable.Coherent ValueCoherent) where
  coherent_refl a := (laws.option).coherent_refl a.t
  coherent_symm coherent := (laws.option).coherent_symm coherent
  coherent_join {a b c} ac bc := by
    rcases a with ⟨_ | x⟩ <;> rcases b with ⟨_ | y⟩ <;> rcases c with ⟨_ | z⟩ <;>
      simp_all [laws.coherent_join]
  join_self a := by
    rcases a with ⟨_ | x⟩ <;> simp [laws.join_self]
  join_comm {a b} coherent := by
    rcases a with ⟨_ | x⟩ <;> rcases b with ⟨_ | y⟩ <;> simp only [semilatticeJoin_deleted_right,
      semilatticeJoin_deleted_left, semilatticeJoin_some_some]
    simp only [coherent_mk_mk, optionCoherent_some_some] at coherent
    rw [laws.join_comm coherent]
  join_assoc {a b c} ab bc ac := by
    rcases a with ⟨_ | x⟩ <;> rcases b with ⟨_ | y⟩ <;> rcases c with ⟨_ | z⟩ <;>
      simp only [semilatticeJoin_deleted_right, semilatticeJoin_deleted_left,
        semilatticeJoin_some_some]
    simp only [coherent_mk_mk, optionCoherent_some_some] at ab bc ac
    rw [laws.join_assoc ab bc ac]

end Deletable

/-! ## `std::map` -/

/-- `std::map<K, V>`, ordered by `K`'s comparison. -/
abbrev StdMap (K V : Type) [Ord K] := Std.ExtTreeMap K V compare

namespace StdMap

variable {K V : Type} [Ord K] [Std.TransOrd K] [Std.LawfulEqOrd K]
  {join : V → V → V} {ValueCoherent : V → V → Prop}

/-- The body of the loop of `semilatticeJoin`: `find`, then insert or join. -/
def joinStep (join : V → V → V) (acc : StdMap K V) (key : K) (value : V) : StdMap K V :=
  match acc[key]? with
  | none => acc.insert key value
  | some old => acc.insert key (join old value)

/-- `semilattice_join(std::map<key_t, value_t> *a, const std::map<key_t, value_t> &b)`:
an entry of `b` whose key `a` lacks is copied in; otherwise the values are joined. -/
def semilatticeJoin (join : V → V → V) (a b : StdMap K V) : StdMap K V :=
  b.foldl (joinStep join) a

/-- Two maps are coherent when their values under every key are. -/
def Coherent (ValueCoherent : V → V → Prop) (a b : StdMap K V) : Prop :=
  ∀ key : K, OptionCoherent ValueCoherent a[key]? b[key]?

theorem getElem?_joinStep (acc : StdMap K V) (key key' : K) (value : V) :
    (joinStep join acc key value)[key']? =
      if compare key key' = .eq then optionJoin join acc[key']? (some value) else acc[key']? := by
  by_cases same : compare key key' = .eq
  · obtain rfl := Std.LawfulEqCmp.eq_of_compare same
    cases found : acc[key]? <;> simp [joinStep, found]
  · cases found : acc[key]? <;> simp [joinStep, found, Std.ExtTreeMap.getElem?_insert, same]

/-- The loop over entries with distinct keys, read at `key`: `acc`'s value joined with the
value of the entry for `key`, if there is one. -/
theorem getElem?_foldl_joinStep (key : K) :
    ∀ (entries : List (K × V)) (acc : StdMap K V) (found : Option V),
      entries.Pairwise (fun p q => ¬compare p.1 q.1 = .eq) →
      (∀ value, (key, value) ∈ entries ↔ found = some value) →
      (entries.foldl (fun acc p => joinStep join acc p.1 p.2) acc)[key]? =
        optionJoin join acc[key]? found
  | [], acc, found, _, spec => by
      cases found with
      | none => simp
      | some value => exact absurd ((spec value).mpr rfl) List.not_mem_nil
  | (key', value') :: rest, acc, found, distinct, spec => by
      rw [List.pairwise_cons] at distinct
      rw [List.foldl_cons]
      by_cases same : compare key' key = .eq
      · -- The entry for `key` is this one, and the later entries have other keys.
        obtain rfl := Std.LawfulEqCmp.eq_of_compare same
        have absent : ∀ value, (key', value) ∈ rest ↔ (none : Option V) = some value := by
          intro value
          simp only [reduceCtorEq, iff_false]
          exact fun member => distinct.1 _ member Std.ReflCmp.compare_self
        have foundIs : found = some value' := (spec value').mp List.mem_cons_self
        rw [getElem?_foldl_joinStep key' rest _ none distinct.2 absent, optionJoin_none_right,
          getElem?_joinStep, if_pos same, foundIs]
      · have restSpec : ∀ value, (key, value) ∈ rest ↔ found = some value := by
          intro value
          rw [← spec value, List.mem_cons]
          constructor
          · exact Or.inr
          · rintro (head | member)
            · have sameKey : key = key' := congrArg Prod.fst head
              rw [sameKey] at same
              exact absurd Std.ReflCmp.compare_self same
            · exact member
        rw [getElem?_foldl_joinStep key rest _ found distinct.2 restSpec, getElem?_joinStep,
          if_neg same]

/-- **A joined map, read at a key**, joins the two maps' values there. -/
theorem getElem?_semilatticeJoin (a b : StdMap K V) (key : K) :
    (semilatticeJoin join a b)[key]? = optionJoin join a[key]? b[key]? := by
  rw [semilatticeJoin, Std.ExtTreeMap.foldl_eq_foldl_toList]
  exact getElem?_foldl_joinStep key _ a _ Std.ExtTreeMap.distinct_keys_toList
    (fun _ => Std.ExtTreeMap.mem_toList_iff_getElem?_eq_some)

/-- The laws of the values lift to maps, key by key. -/
theorem semilatticeJoin_laws (laws : JoinLaws join ValueCoherent) :
    JoinLaws (semilatticeJoin join) (StdMap.Coherent ValueCoherent : StdMap K V → _ → _) where
  coherent_refl a := fun key => laws.option.coherent_refl a[key]?
  coherent_symm coherent := fun key => laws.option.coherent_symm (coherent key)
  coherent_join ac bc := fun key => by
    rw [getElem?_semilatticeJoin]
    exact laws.option.coherent_join (ac key) (bc key)
  join_self a := Std.ExtTreeMap.ext_getElem? fun key => by
    rw [getElem?_semilatticeJoin, laws.option.join_self]
  join_comm coherent := Std.ExtTreeMap.ext_getElem? fun key => by
    rw [getElem?_semilatticeJoin, getElem?_semilatticeJoin, laws.option.join_comm (coherent key)]
  join_assoc ab bc ac := Std.ExtTreeMap.ext_getElem? fun key => by
    simp only [getElem?_semilatticeJoin]
    rw [laws.option.join_assoc (ab key) (bc key) (ac key)]

end StdMap

/-! ## `std::set` -/

/-- `std::set<T>`, ordered by `T`'s comparison. -/
abbrev StdSet (T : Type) [Ord T] := Std.ExtTreeSet T compare

namespace StdSet

variable {T : Type} [Ord T] [Std.TransOrd T] [Std.LawfulEqOrd T]

/-- `semilattice_join(std::set<T> *a, const std::set<T> &b)`: every element of `b` is
inserted into `a`. -/
def semilatticeJoin (a b : StdSet T) : StdSet T :=
  b.foldl (fun acc x => acc.insert x) a

theorem mem_foldl_insert (x : T) :
    ∀ (elements : List T) (acc : StdSet T),
      x ∈ elements.foldl (fun acc y => acc.insert y) acc ↔ x ∈ acc ∨ x ∈ elements
  | [], acc => by simp
  | y :: rest, acc => by
      rw [List.foldl_cons, mem_foldl_insert x rest, Std.ExtTreeSet.mem_insert,
        Std.compare_eq_iff_eq, List.mem_cons]
      constructor
      · rintro ((same | member) | member)
        · exact Or.inr (Or.inl same.symm)
        · exact Or.inl member
        · exact Or.inr (Or.inr member)
      · rintro (member | same | member)
        · exact Or.inl (Or.inr member)
        · exact Or.inl (Or.inl same.symm)
        · exact Or.inr member

/-- A joined set is the union. -/
theorem mem_semilatticeJoin (a b : StdSet T) (x : T) :
    x ∈ semilatticeJoin a b ↔ x ∈ a ∨ x ∈ b := by
  rw [semilatticeJoin, Std.ExtTreeSet.foldl_eq_foldl_toList, mem_foldl_insert,
    Std.ExtTreeSet.mem_toList]

/-- Union is lawful on all sets. -/
theorem semilatticeJoin_laws : JoinLaws (@semilatticeJoin T _ _) (fun _ _ => True) where
  coherent_refl _ := trivial
  coherent_symm _ := trivial
  coherent_join _ _ := trivial
  join_self a := Std.ExtTreeSet.ext_mem fun x => by rw [mem_semilatticeJoin, or_self]
  join_comm _ := Std.ExtTreeSet.ext_mem fun x => by
    rw [mem_semilatticeJoin, mem_semilatticeJoin, or_comm]
  join_assoc _ _ _ := Std.ExtTreeSet.ext_mem fun x => by
    simp only [mem_semilatticeJoin, or_assoc]

end StdSet

/-! ## Records joined field by field -/

section Fields

variable {A B : Type} {joinA : A → A → A} {joinB : B → B → B}
  {CoherentA : A → A → Prop} {CoherentB : B → B → Prop}

/-- `RDB_MAKE_SEMILATTICE_JOINABLE_2(type_t, field1, field2)`: each field joined by its own
join.  A record of more fields is a nest of pairs; `_1` is the field's own join. -/
def fieldsSemilatticeJoin (joinA : A → A → A) (joinB : B → B → B) (a b : A × B) : A × B :=
  (joinA a.1 b.1, joinB a.2 b.2)

/-- Two records are coherent when their fields are. -/
def FieldsCoherent (CoherentA : A → A → Prop) (CoherentB : B → B → Prop) (a b : A × B) : Prop :=
  CoherentA a.1 b.1 ∧ CoherentB a.2 b.2

theorem fieldsSemilatticeJoin_laws (lawsA : JoinLaws joinA CoherentA)
    (lawsB : JoinLaws joinB CoherentB) :
    JoinLaws (fieldsSemilatticeJoin joinA joinB) (FieldsCoherent CoherentA CoherentB) where
  coherent_refl a := ⟨lawsA.coherent_refl a.1, lawsB.coherent_refl a.2⟩
  coherent_symm coherent := ⟨lawsA.coherent_symm coherent.1, lawsB.coherent_symm coherent.2⟩
  coherent_join ac bc := ⟨lawsA.coherent_join ac.1 bc.1, lawsB.coherent_join ac.2 bc.2⟩
  join_self a := Prod.ext (lawsA.join_self a.1) (lawsB.join_self a.2)
  join_comm coherent := Prod.ext (lawsA.join_comm coherent.1) (lawsB.join_comm coherent.2)
  join_assoc ab bc ac :=
    Prod.ext (lawsA.join_assoc ab.1 bc.1 ac.1) (lawsB.join_assoc ab.2 bc.2 ac.2)

end Fields

/-! ## Replicas -/

section Replicas

variable {M : Type}

/-- `semilattice_manager_t<metadata_t>::join_metadata_locally`: the replica's metadata
joined with a value it received, from a local change or from a peer. -/
def joinMetadataLocally (join : M → M → M) (metadata added : M) : M := join metadata added

end Replicas

/-- **The metadata joins are lawful.**  `versioned_t`'s join is idempotent, commutative and
associative on coherent registers; `deletable_t`, `std::map` and field-by-field records
lift the laws of their parts with the coherence of their parts, and `std::set`'s union is
lawful outright.  So a replica that receives coherent updates ends with metadata that does
not depend on their order or on repetitions. -/
theorem semilattice_joins_lawful :
    (∀ T : Type, JoinLaws (@Versioned.semilatticeJoin T) Versioned.Coherent) ∧
    (∀ (T : Type) (join : T → T → T) (Coherent : T → T → Prop), JoinLaws join Coherent →
      JoinLaws (Deletable.semilatticeJoin join) (Deletable.Coherent Coherent)) ∧
    (∀ (K V : Type) [Ord K] [Std.TransOrd K] [Std.LawfulEqOrd K] (join : V → V → V)
      (Coherent : V → V → Prop), JoinLaws join Coherent →
      JoinLaws (StdMap.semilatticeJoin join)
        (StdMap.Coherent Coherent : StdMap K V → StdMap K V → Prop)) ∧
    (∀ (T : Type) [Ord T] [Std.TransOrd T] [Std.LawfulEqOrd T],
      JoinLaws (@StdSet.semilatticeJoin T _ _) (fun _ _ => True)) ∧
    (∀ (A B : Type) (joinA : A → A → A) (joinB : B → B → B) (CoherentA : A → A → Prop)
      (CoherentB : B → B → Prop), JoinLaws joinA CoherentA → JoinLaws joinB CoherentB →
      JoinLaws (fieldsSemilatticeJoin joinA joinB) (FieldsCoherent CoherentA CoherentB)) ∧
    (∀ (M : Type) (join : M → M → M) (Coherent : M → M → Prop), JoinLaws join Coherent →
      ∀ updates : M → Prop, (∀ a b, updates a → updates b → Coherent a b) →
      ∀ (initial : M) (received received' : List M), updates initial →
        (∀ x ∈ received, updates x) → (∀ x ∈ received', updates x) →
        (∀ x, x ∈ received ↔ x ∈ received') →
        received.foldl (joinMetadataLocally join) initial =
          received'.foldl (joinMetadataLocally join) initial) := by
  refine ⟨fun _ => Versioned.semilatticeJoin_laws, fun _ _ _ laws =>
    Deletable.semilatticeJoin_laws laws, fun _ _ _ _ _ _ _ laws => StdMap.semilatticeJoin_laws laws,
    fun _ _ _ _ => StdSet.semilatticeJoin_laws,
    fun _ _ _ _ _ _ lawsA lawsB => fieldsSemilatticeJoin_laws lawsA lawsB, ?_⟩
  intro M join Coherent laws updates coherent initial received received' initialUpdate
    members members' sameMembers
  exact laws.foldl_eq_of_same_members coherent initialUpdate members members' sameMembers

/-- Three registers at times `0`, `1` and `2`. -/
def sampleVersion (time : Nat) : Versioned Nat :=
  ⟨time * 10, time, ⟨List.replicate 16 (time.toUInt8), by simp⟩⟩

/-- A replica that got the updates at times `1` and `2` agrees with one that got them in the
other order, one of them twice. -/
theorem replicas_agree_on_sample_versions :
    [sampleVersion 1, sampleVersion 2].foldl (joinMetadataLocally Versioned.semilatticeJoin)
        (sampleVersion 0) =
      [sampleVersion 2, sampleVersion 1, sampleVersion 2].foldl
        (joinMetadataLocally Versioned.semilatticeJoin) (sampleVersion 0) :=
  semilattice_joins_lawful.2.2.2.2.2 _ _ _ (semilattice_joins_lawful.1 Nat)
    (· ∈ [sampleVersion 0, sampleVersion 1, sampleVersion 2])
    (by
      intro a b memberA memberB
      simp only [List.mem_cons, List.not_mem_nil, or_false] at memberA memberB
      rcases memberA with rfl | rfl | rfl <;> rcases memberB with rfl | rfl | rfl <;> decide)
    _ _ _ (by decide) (by decide) (by decide)
    (fun _ => by simp only [List.mem_cons, List.not_mem_nil, or_false]; tauto)

end Rpc
end RethinkDB
