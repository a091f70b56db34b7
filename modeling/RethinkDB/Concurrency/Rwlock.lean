import Mathlib

/-!
# The read/write lock

`rwlock_t` (`concurrency/rwlock.cc`) keeps its acquirers in a queue, in the order they got in
line.  Each `rwlock_in_line_t` has a read signal and a write signal, `cond_t`s that are pulsed
at most once and are not reset while it is in line.  Getting in line appends to the queue, and
leaving it (`reset`, or the destructor) takes an acquirer out of any place in it; either way
`pulse_pulsables` then runs on the node whose predecessor changed and pulses what has become
free.  It takes a shortcut when that node is already pulsed for read, and otherwise walks
forward along a chain of readers.

The queue is a list, and `prev` and `next` of the `intrusive_list_t` are the neighbours in it.
An acquirer has an identity, handed out fresh to each new one.  `cond_t::pulse` asserts that
the signal was not pulsed yet, and a pulse that breaks the assertion is `none`.
-/

namespace RethinkDB
namespace Concurrency

/-- `access_t`. -/
inductive Access where
  | read
  | write
  deriving DecidableEq, Repr

/-- An `rwlock_in_line_t` in the queue: who it is, its access, and whether its `read_cond_` and
`write_cond_` are pulsed. -/
structure InLine where
  id : Nat
  access : Access
  readPulsed : Bool
  writePulsed : Bool
  deriving DecidableEq, Repr

/-- `read_cond_.pulse()`, which asserts the signal was not pulsed. -/
def InLine.pulseRead (p : InLine) : Option InLine :=
  if p.readPulsed then none else some { p with readPulsed := true }

/-- `write_cond_.pulse()`. -/
def InLine.pulseWrite (p : InLine) : Option InLine :=
  if p.writePulsed then none else some { p with writePulsed := true }

/-- Whether the walk of `pulse_pulsables` stops at a node after `prev`: there is a node before it,
and that is not a reader pulsed for read. -/
def stopsAfter : Option InLine → Bool
  | none => false
  | some prev => !(prev.access == .read && prev.readPulsed)

/-- The `do ... while` loop of `pulse_pulsables`, from `p` on, `prev` being the node before `p`:
unless it stops, it pulses `p` for read and goes on to the next node, but a writer ends the walk
and is pulsed for write too when it is at the head. -/
def pulseChain (prev : Option InLine) : List InLine → Option (List InLine)
  | [] => some []
  | p :: rest =>
    if stopsAfter prev then some (p :: rest)
    else do
      let p ← p.pulseRead
      if p.access = .write then
        if prev.isNone then
          let p ← p.pulseWrite
          some (p :: rest)
        else some (p :: rest)
      else
        let rest ← pulseChain (some p) rest
        some (p :: rest)

/-- `rwlock_t::pulse_pulsables(p)` for the node at position `i` of the queue, there being none
past its end. -/
def pulsePulsables (acqs : List InLine) (i : Nat) : Option (List InLine) :=
  match acqs.drop i with
  | [] => some acqs
  | p :: rest =>
    if p.readPulsed then
      -- the chain after `p` is pulsed already; `p` may only have become the head
      if p.access = .write ∧ i = 0 then
        some (acqs.take i ++ { p with writePulsed := true } :: rest)
      else some acqs
    else do
      let tail ← pulseChain (acqs.take i).getLast? (p :: rest)
      some (acqs.take i ++ tail)

/-- `rwlock_t`: the queue, and the identity the next acquirer gets. -/
structure Rwlock where
  acqs : List InLine
  nextId : Nat

/-- A lock with nobody in line. -/
def Rwlock.empty : Rwlock := ⟨[], 0⟩

/-- `rwlock_in_line_t(lock, access)`: `add_acq` appends the acquirer and pulses it if it may go
already. -/
def Rwlock.addAcq (lock : Rwlock) (access : Access) : Option Rwlock :=
  let acqs := lock.acqs ++ [⟨lock.nextId, access, false, false⟩]
  (pulsePulsables acqs lock.acqs.length).map fun acqs => ⟨acqs, lock.nextId + 1⟩

/-- `rwlock_in_line_t::reset()` of acquirer `id`: `remove_acq` takes it out and pulses from the
node that came after it.  An acquirer that is not in line (`lock_ == NULL`) does nothing. -/
def Rwlock.removeAcq (lock : Rwlock) (id : Nat) : Option Rwlock :=
  match lock.acqs.findIdx? (·.id == id) with
  | none => some lock
  | some i => (pulsePulsables (lock.acqs.eraseIdx i) i).map fun acqs => { lock with acqs }

/-- What the users of a lock do: get in line, or reset or destroy an acquirer. -/
inductive Event where
  | getInLine (access : Access)
  | reset (id : Nat)

/-- One event. -/
def Rwlock.step (lock : Rwlock) : Event → Option Rwlock
  | .getInLine access => lock.addAcq access
  | .reset id => lock.removeAcq id

/-- A sequence of events, `none` if an assertion fails on the way. -/
def Rwlock.run (lock : Rwlock) : List Event → Option Rwlock
  | [] => some lock
  | e :: events => (lock.step e).bind fun lock => lock.run events

/-! ## What the lock grants

The signals each acquirer should have depend only on the accesses in the queue: the read signal
while no writer is ahead of it, and the write signal for a writer at the head. -/

/-- The two signals of an acquirer. -/
def InLine.signals (p : InLine) : Bool × Bool := (p.readPulsed, p.writePulsed)

/-- Who an acquirer is: its identity and access, which the lock never changes. -/
def InLine.who (p : InLine) : Nat × Access := (p.id, p.access)

/-- Whether a queue has no writer. -/
def noWriter (accesses : List Access) : Bool := accesses.all (· == .read)

/-- The signals of a queue with these accesses, given whether no writer is ahead of it and
whether it starts at the head. -/
def grants (noWriterAhead atHead : Bool) : List Access → List (Bool × Bool)
  | [] => []
  | a :: rest =>
    (noWriterAhead, atHead && a == .write) :: grants (noWriterAhead && a == .read) false rest

/-- Every acquirer in the queue has the signals it should. -/
def Granted (acqs : List InLine) : Prop :=
  acqs.map InLine.signals = grants true true (acqs.map InLine.access)

instance (acqs : List InLine) : Decidable (Granted acqs) :=
  inferInstanceAs (Decidable (_ = _))

/-! ## The signals of a queue -/

@[simp] theorem Access.read_beq_write : (Access.read == Access.write) = false := rfl

@[simp] theorem Access.write_beq_read : (Access.write == Access.read) = false := rfl

section Grants

theorem length_grants (noWriterAhead atHead : Bool) (accesses : List Access) :
    (grants noWriterAhead atHead accesses).length = accesses.length := by
  induction accesses generalizing noWriterAhead atHead with
  | nil => rfl
  | cons a rest ih => simp [grants, ih]

/-- The signals of a queue in two parts: the second part starts after the first. -/
theorem grants_append (noWriterAhead atHead : Bool) (first second : List Access) :
    grants noWriterAhead atHead (first ++ second) =
      grants noWriterAhead atHead first ++
        grants (noWriterAhead && noWriter first) (atHead && first.isEmpty) second := by
  induction first generalizing noWriterAhead atHead with
  | nil => simp [noWriter, grants]
  | cons a rest ih =>
    simp only [List.cons_append, grants, ih, noWriter, List.all_cons, List.isEmpty_cons,
      Bool.and_false, Bool.false_and, Bool.and_assoc]

/-- Behind a writer nothing is pulsed. -/
theorem grants_false (accesses : List Access) :
    grants false false accesses = accesses.map fun _ => (false, false) := by
  induction accesses with
  | nil => rfl
  | cons a rest ih => simp [grants, ih]

/-- Any queue behind this one, or nearer the head, grants at least as much. -/
theorem grants_le {noWriterAhead noWriterAhead' atHead atHead' : Bool}
    (more : noWriterAhead = true → noWriterAhead' = true)
    (nearer : atHead = true → atHead' = true)
    (accesses : List Access) :
    List.Forall₂ (fun s s' => (s.1 = true → s'.1 = true) ∧ (s.2 = true → s'.2 = true))
      (grants noWriterAhead atHead accesses) (grants noWriterAhead' atHead' accesses) := by
  induction accesses generalizing noWriterAhead noWriterAhead' atHead atHead' with
  | nil => exact List.Forall₂.nil
  | cons a rest ih =>
    refine List.Forall₂.cons ⟨more, ?_⟩ (ih ?_ (fun no => absurd no Bool.false_ne_true))
    · simp only [Bool.and_eq_true]
      exact fun ⟨head, writer⟩ => ⟨nearer head, writer⟩
    · simp only [Bool.and_eq_true]
      exact fun ⟨ahead, reader⟩ => ⟨more ahead, reader⟩

end Grants

section Pulse

/-- The signals of a queue in which nothing is pulsed. -/
theorem signals_of_unpulsed {acqs : List InLine}
    (unpulsed : ∀ p ∈ acqs, p.signals = (false, false)) :
    acqs.map InLine.signals = grants false false (acqs.map InLine.access) := by
  rw [grants_false, List.map_map]
  exact List.map_congr_left unpulsed

/-- The walk, started where it does not stop, pulses a queue in which nothing is pulsed as far as
the first writer. -/
theorem pulseChain_spec (prev : Option InLine) (go : stopsAfter prev = false) (l : List InLine)
    (unpulsed : ∀ p ∈ l, p.signals = (false, false)) :
    ∃ r, pulseChain prev l = some r ∧ r.map InLine.who = l.map InLine.who ∧
      r.map InLine.signals = grants true prev.isNone (l.map InLine.access) := by
  induction l generalizing prev with
  | nil => exact ⟨[], rfl, rfl, rfl⟩
  | cons p rest ih =>
    have off : p.readPulsed = false ∧ p.writePulsed = false := by
      simpa [InLine.signals] using unpulsed p (List.mem_cons_self ..)
    have restOff := fun q member => unpulsed q (List.mem_cons_of_mem p member)
    cases access : p.access with
    | read =>
      -- a reader is pulsed, and the walk goes on behind it
      obtain ⟨r, chain, who, signals⟩ :=
        ih (some { p with readPulsed := true }) (by simp [stopsAfter, access]) restOff
      rw [access] at chain
      refine ⟨{ p with readPulsed := true } :: r, ?_, ?_, ?_⟩
      · simp [pulseChain, go, InLine.pulseRead, off.1, access, chain]
      · simp [InLine.who, who]
      · simp [grants, InLine.signals, signals, access, off.2]
    | write =>
      -- a writer ends the walk, pulsed for write as well at the head
      have rest_signals := signals_of_unpulsed restOff
      cases prev with
      | none =>
        refine ⟨{ p with readPulsed := true, writePulsed := true } :: rest, ?_, ?_, ?_⟩
        · simp [pulseChain, stopsAfter, InLine.pulseRead, InLine.pulseWrite, off.1, off.2, access]
        · simp [InLine.who]
        · simp [grants, InLine.signals, access, rest_signals]
      | some q =>
        refine ⟨{ p with readPulsed := true } :: rest, ?_, ?_, ?_⟩
        · simp [pulseChain, go, InLine.pulseRead, off.1, access]
        · simp [InLine.who]
        · simp [grants, InLine.signals, access, rest_signals, off.2]

end Pulse

section Queue

/-- A queue is granted when its front part is, and the rest has the signals of a queue behind
that part. -/
theorem granted_append_iff (front back : List InLine) :
    Granted (front ++ back) ↔ Granted front ∧
      back.map InLine.signals =
        grants (noWriter (front.map InLine.access)) front.isEmpty (back.map InLine.access) := by
  unfold Granted
  rw [List.map_append, List.map_append, grants_append, Bool.true_and, Bool.true_and,
    List.isEmpty_map]
  constructor
  · intro same
    exact List.append_inj same (by rw [List.length_map, length_grants, List.length_map])
  · rintro ⟨front_eq, back_eq⟩
    rw [front_eq, back_eq]

/-- The walk stops behind the last node of a granted queue exactly when the queue has a writer. -/
theorem stopsAfter_getLast {acqs : List InLine} (granted : Granted acqs) :
    stopsAfter acqs.getLast? = !noWriter (acqs.map InLine.access) := by
  rcases List.eq_nil_or_concat acqs with empty | ⟨init, last, split⟩
  · rw [empty]
    rfl
  · rw [split, List.concat_eq_append] at granted ⊢
    -- the last node is pulsed for read exactly when no writer is before it
    have lastSignals := ((granted_append_iff init [last]).mp granted).2
    simp only [List.map_cons, List.map_nil, grants, List.cons.injEq, InLine.signals,
      Prod.mk.injEq, and_true] at lastSignals
    simp [stopsAfter, noWriter, List.all_append, lastSignals.1, Bool.or_comm]

/-- The signals of a queue behind a writer say that nothing in it is pulsed. -/
theorem unpulsed_of_signals {acqs : List InLine}
    (signals : acqs.map InLine.signals = grants false false (acqs.map InLine.access)) :
    ∀ p ∈ acqs, p.signals = (false, false) := by
  rw [grants_false, List.map_map] at signals
  exact List.map_eq_map_iff.mp signals

theorem isNone_getLast? (acqs : List InLine) : acqs.getLast?.isNone = acqs.isEmpty := by
  cases acqs <;> simp

/-- `pulse_pulsables` on a node that is not pulsed, behind a granted front part, in a part where
nothing is pulsed: it pulses that part as a queue behind the front. -/
theorem pulsePulsables_of_unpulsed (front back : List InLine) (granted : Granted front)
    (unpulsed : ∀ p ∈ back, p.signals = (false, false)) :
    ∃ back', pulsePulsables (front ++ back) front.length = some (front ++ back') ∧
      back'.map InLine.who = back.map InLine.who ∧
      back'.map InLine.signals =
        grants (noWriter (front.map InLine.access)) front.isEmpty (back.map InLine.access) := by
  cases back with
  | nil => exact ⟨[], by simp [pulsePulsables], rfl, rfl⟩
  | cons p rest =>
    have off : p.readPulsed = false := by
      have := unpulsed p (List.mem_cons_self ..)
      simp only [InLine.signals, Prod.mk.injEq] at this
      exact this.1
    have stop := stopsAfter_getLast granted
    by_cases free : noWriter (front.map InLine.access) = true
    · -- no writer ahead: the walk pulses from this node on
      obtain ⟨r, chain, who, signals⟩ :=
        pulseChain_spec front.getLast? (by rw [stop, free]; rfl) (p :: rest) unpulsed
      refine ⟨r, ?_, who, ?_⟩
      · unfold pulsePulsables
        simp only [List.drop_left, List.take_left, off, Bool.false_eq_true, if_false, chain]
        rfl
      · rw [signals, free, isNone_getLast?]
    · -- a writer ahead: the walk stops at once, and nothing behind it is pulsed
      have halt : stopsAfter front.getLast? = true := by
        rw [stop]
        simpa using free
      have nonempty : front.isEmpty = false := by
        cases front with
        | nil => exact absurd rfl free
        | cons _ _ => rfl
      refine ⟨p :: rest, ?_, rfl, ?_⟩
      · unfold pulsePulsables
        simp [off, pulseChain, halt]
      · rw [Bool.not_eq_true] at free
        rw [free, nonempty]
        exact signals_of_unpulsed unpulsed

/-- `pulse_pulsables` on a node already pulsed for read, behind a front part with no writer: only
its write signal may change, if it is a writer now at the head. -/
theorem pulsePulsables_of_pulsed (front back : List InLine) (granted : Granted front)
    (free : noWriter (front.map InLine.access) = true)
    (pulsed : back.map InLine.signals = grants true false (back.map InLine.access)) :
    ∃ back', pulsePulsables (front ++ back) front.length = some (front ++ back') ∧
      back'.map InLine.who = back.map InLine.who ∧
      back'.map InLine.signals = grants true front.isEmpty (back.map InLine.access) := by
  cases back with
  | nil => exact ⟨[], by simp [pulsePulsables], rfl, rfl⟩
  | cons p rest =>
    simp only [List.map_cons, grants, InLine.signals, List.cons.injEq, Prod.mk.injEq,
      Bool.false_and, Bool.true_and] at pulsed
    obtain ⟨⟨readOn, writeOff⟩, restSignals⟩ := pulsed
    by_cases head : p.access = .write ∧ front.length = 0
    · -- a writer that has become the head
      have empty : front = [] := List.eq_nil_of_length_eq_zero head.2
      subst empty
      refine ⟨{ p with writePulsed := true } :: rest, ?_, by simp [InLine.who], ?_⟩
      · unfold pulsePulsables
        simp [readOn, head.1]
      · simp [grants, InLine.signals, readOn, head.1, restSignals]
    · refine ⟨p :: rest, ?_, rfl, ?_⟩
      · unfold pulsePulsables
        simp only [List.drop_left, readOn, if_true, if_neg head]
      · have notHead : (front.isEmpty && p.access == .write) = false := by
          cases access : p.access <;> cases front <;> simp_all
        simp [grants, InLine.signals, readOn, writeOff, restSignals, notHead]

end Queue

section Steps

/-- Who the acquirers are fixes their accesses. -/
theorem map_access_of_who {acqs acqs' : List InLine}
    (who : acqs'.map InLine.who = acqs.map InLine.who) :
    acqs'.map InLine.access = acqs.map InLine.access := by
  have seconds := congrArg (List.map Prod.snd) who
  rw [List.map_map, List.map_map] at seconds
  exact seconds

/-- and their identities. -/
theorem map_id_of_who {acqs acqs' : List InLine}
    (who : acqs'.map InLine.who = acqs.map InLine.who) :
    acqs'.map InLine.id = acqs.map InLine.id := by
  have firsts := congrArg (List.map Prod.fst) who
  rw [List.map_map, List.map_map] at firsts
  exact firsts

/-- A queue whose signals are pointwise at least those of another with the same acquirers
keeps each pulsed signal of it. -/
theorem raised_of_forall₂ {acqs acqs' : List InLine}
    (who : acqs'.map InLine.who = acqs.map InLine.who)
    (more : List.Forall₂
      (fun s s' => (s.1 = true → s'.1 = true) ∧ (s.2 = true → s'.2 = true))
      (acqs.map InLine.signals) (acqs'.map InLine.signals)) :
    ∀ p' ∈ acqs', ∃ p ∈ acqs, p.id = p'.id ∧
      (p.readPulsed = true → p'.readPulsed = true) ∧
      (p.writePulsed = true → p'.writePulsed = true) := by
  induction acqs generalizing acqs' with
  | nil =>
    have empty : acqs' = [] := List.map_eq_nil_iff.mp who
    subst empty
    intro _ member
    exact absurd member List.not_mem_nil
  | cons q rest ih =>
    cases acqs' with
    | nil => exact absurd who.symm (List.cons_ne_nil _ _)
    | cons q' rest' =>
      rw [List.map_cons, List.map_cons, List.cons.injEq] at who
      rw [List.map_cons, List.map_cons, List.forall₂_cons] at more
      intro p' member
      rcases List.mem_cons.mp member with here | later
      · -- the first acquirer of each queue is the same one
        subst here
        have sameId : q.id = p'.id := (Prod.mk.injEq _ _ _ _ ▸ who.1).1.symm
        exact ⟨q, List.mem_cons_self .., sameId, more.1.1, more.1.2⟩
      · obtain ⟨p, member', rest_eq⟩ := ih who.2 more.2 p' later
        exact ⟨p, List.mem_cons_of_mem q member', rest_eq⟩

/-- What every lock reached by its users keeps: the signals it should, and distinct identities
below the next one. -/
structure Rwlock.Inv (lock : Rwlock) : Prop where
  granted : Granted lock.acqs
  nodup : (lock.acqs.map InLine.id).Nodup
  fresh : ∀ p ∈ lock.acqs, p.id < lock.nextId

/-- No signal of an acquirer that stays in line is reset. -/
def Rwlock.Raised (lock lock' : Rwlock) : Prop :=
  ∀ p ∈ lock.acqs, ∀ p' ∈ lock'.acqs, p.id = p'.id →
    (p.readPulsed = true → p'.readPulsed = true) ∧
      (p.writePulsed = true → p'.writePulsed = true)

theorem inv_empty : Rwlock.empty.Inv :=
  ⟨rfl, List.nodup_nil, fun _ member => absurd member List.not_mem_nil⟩

/-- Two acquirers of a queue with distinct identities that have the same identity are one. -/
theorem eq_of_id_eq {acqs : List InLine} (nodup : (acqs.map InLine.id).Nodup) {p p' : InLine}
    (member : p ∈ acqs) (member' : p' ∈ acqs) (same : p.id = p'.id) : p = p' :=
  List.inj_on_of_nodup_map nodup member member' same

theorem addAcq_spec {lock : Rwlock} (inv : lock.Inv) (access : Access) :
    ∃ lock', lock.addAcq access = some lock' ∧ lock'.Inv ∧ lock.Raised lock' := by
  let acq : InLine := ⟨lock.nextId, access, false, false⟩
  obtain ⟨back', pulse, who, signals⟩ := pulsePulsables_of_unpulsed lock.acqs [acq] inv.granted
    (by simp [acq, InLine.signals])
  have ids : (lock.acqs ++ back').map InLine.id = lock.acqs.map InLine.id ++ [lock.nextId] := by
    rw [List.map_append, map_id_of_who who]
    rfl
  have old : ∀ n ∈ lock.acqs.map InLine.id, n < lock.nextId := by
    intro n member
    obtain ⟨p, member', rfl⟩ := List.mem_map.mp member
    exact inv.fresh p member'
  refine ⟨⟨lock.acqs ++ back', lock.nextId + 1⟩, ?_, ⟨?_, ?_, ?_⟩, ?_⟩
  · simp only [Rwlock.addAcq]
    rw [pulse]
    rfl
  · show Granted (lock.acqs ++ back')
    rw [granted_append_iff, map_access_of_who who]
    exact ⟨inv.granted, signals⟩
  · show ((lock.acqs ++ back').map InLine.id).Nodup
    rw [ids, List.nodup_append]
    refine ⟨inv.nodup, List.nodup_singleton _, ?_⟩
    intro n member m other
    rw [List.mem_singleton] at other
    have := old n member
    omega
  · intro p member
    have listed : p.id ∈ (lock.acqs ++ back').map InLine.id := List.mem_map_of_mem member
    rw [ids, List.mem_append, List.mem_singleton] at listed
    show p.id < lock.nextId + 1
    rcases listed with before | new
    · have := old p.id before
      omega
    · omega
  · -- the new acquirer has an identity no one had; everyone else is as before
    intro p member p' member' same
    rcases List.mem_append.mp member' with before | new
    · rw [eq_of_id_eq inv.nodup member before same]
      exact ⟨id, id⟩
    · have newId : p'.id = lock.nextId := by
        have := List.mem_map_of_mem (f := InLine.id) new
        rw [map_id_of_who who] at this
        simpa [acq] using this
      have := inv.fresh p member
      omega

theorem removeAcq_spec {lock : Rwlock} (inv : lock.Inv) (id : Nat) :
    ∃ lock', lock.removeAcq id = some lock' ∧ lock'.Inv ∧ lock.Raised lock' := by
  unfold Rwlock.removeAcq
  cases found : lock.acqs.findIdx? (·.id == id) with
  | none =>
    -- not in line: nothing happens
    refine ⟨lock, rfl, inv, ?_⟩
    intro p member p' member' same
    rw [eq_of_id_eq inv.nodup member member' same]
    exact ⟨fun pulsed => pulsed, fun pulsed => pulsed⟩
  | some i =>
    dsimp only
    obtain ⟨lt, -, -⟩ := List.findIdx?_eq_some_iff_getElem.mp found
    -- the queue around the acquirer that leaves
    have split : lock.acqs = lock.acqs.take i ++ lock.acqs[i] :: lock.acqs.drop (i + 1) := by
      rw [← List.drop_eq_getElem_cons lt, List.take_append_drop]
    have erased : lock.acqs.eraseIdx i = lock.acqs.take i ++ lock.acqs.drop (i + 1) :=
      List.eraseIdx_eq_take_drop_succ _ _
    have frontLength : (lock.acqs.take i).length = i := List.length_take_of_le lt.le
    have parts := (granted_append_iff _ _).mp (split ▸ inv.granted)
    simp only [List.map_cons, grants, List.cons.injEq] at parts
    obtain ⟨grantedFront, -, backSignals⟩ := parts
    -- what behind it is pulsed now is what it should be behind the front part
    have pulsed : ∃ back', pulsePulsables (lock.acqs.eraseIdx i) i =
          some (lock.acqs.take i ++ back') ∧
        back'.map InLine.who = (lock.acqs.drop (i + 1)).map InLine.who ∧
        back'.map InLine.signals = grants (noWriter ((lock.acqs.take i).map InLine.access))
          (lock.acqs.take i).isEmpty ((lock.acqs.drop (i + 1)).map InLine.access) := by
      rw [erased]
      by_cases both : (noWriter ((lock.acqs.take i).map InLine.access) &&
          lock.acqs[i].access == .read) = true
      · have free : noWriter ((lock.acqs.take i).map InLine.access) = true :=
          (Bool.and_eq_true _ _ ▸ both).1
        rw [both] at backSignals
        have step := pulsePulsables_of_pulsed _ _ grantedFront free backSignals
        rw [frontLength] at step
        rw [free]
        exact step
      · rw [Bool.not_eq_true] at both
        rw [both] at backSignals
        have step := pulsePulsables_of_unpulsed _ _ grantedFront (unpulsed_of_signals backSignals)
        rw [frontLength] at step
        exact step
    obtain ⟨back', pulse, who, signals⟩ := pulsed
    have ids :
        (lock.acqs.take i ++ back').map InLine.id = (lock.acqs.eraseIdx i).map InLine.id := by
      rw [erased, List.map_append, List.map_append, map_id_of_who who]
    have kept : List.Sublist ((lock.acqs.eraseIdx i).map InLine.id) (lock.acqs.map InLine.id) :=
      (List.eraseIdx_sublist _ _).map _
    refine ⟨{ lock with acqs := lock.acqs.take i ++ back' }, by rw [pulse]; rfl,
      ⟨?_, ?_, ?_⟩, ?_⟩
    · show Granted (lock.acqs.take i ++ back')
      rw [granted_append_iff, map_access_of_who who]
      exact ⟨grantedFront, signals⟩
    · show ((lock.acqs.take i ++ back').map InLine.id).Nodup
      rw [ids]
      exact inv.nodup.sublist kept
    · intro p member
      have listed : p.id ∈ lock.acqs.map InLine.id := by
        apply kept.subset
        rw [← ids]
        exact List.mem_map_of_mem member
      obtain ⟨q, member', same⟩ := List.mem_map.mp listed
      rw [← same]
      exact inv.fresh q member'
    · -- in front nothing changes; behind, signals only go from the old to the new grants
      intro p member p' member' same
      rcases List.mem_append.mp member' with front | back
      · rw [eq_of_id_eq inv.nodup member (List.mem_of_mem_take front) same]
        exact ⟨fun pulsed => pulsed, fun pulsed => pulsed⟩
      · have more : List.Forall₂
            (fun s s' => (s.1 = true → s'.1 = true) ∧ (s.2 = true → s'.2 = true))
            (grants (noWriter ((lock.acqs.take i).map InLine.access) &&
              lock.acqs[i].access == .read) false ((lock.acqs.drop (i + 1)).map InLine.access))
            (grants (noWriter ((lock.acqs.take i).map InLine.access)) (lock.acqs.take i).isEmpty
              ((lock.acqs.drop (i + 1)).map InLine.access)) :=
          grants_le (fun ahead => (Bool.and_eq_true _ _ ▸ ahead).1)
            (fun no => absurd no Bool.false_ne_true) _
        rw [← backSignals, ← signals] at more
        obtain ⟨q, member'', sameId, read, write⟩ := raised_of_forall₂ who more p' back
        rw [eq_of_id_eq inv.nodup member (List.mem_of_mem_drop member'') (same.trans sameId.symm)]
        exact ⟨read, write⟩

end Steps

theorem Rwlock.step_spec {lock : Rwlock} (inv : lock.Inv) (e : Event) :
    ∃ lock', lock.step e = some lock' ∧ lock'.Inv ∧ lock.Raised lock' := by
  cases e with
  | getInLine access => exact addAcq_spec inv access
  | reset id => exact removeAcq_spec inv id

/-- No run of a lock that keeps the invariant fails an assertion, and every run keeps it. -/
theorem Rwlock.run_spec (events : List Event) :
    ∀ lock : Rwlock, lock.Inv → ∃ lock', lock.run events = some lock' ∧ lock'.Inv := by
  induction events with
  | nil => exact fun lock inv => ⟨lock, rfl, inv⟩
  | cons e events ih =>
    intro lock inv
    obtain ⟨next, step, inv', -⟩ := Rwlock.step_spec inv e
    obtain ⟨last, run, invLast⟩ := ih next inv'
    exact ⟨last, by rw [Rwlock.run, step, Option.bind_some, run], invLast⟩

example : (Rwlock.empty.run [.getInLine .write, .getInLine .read, .getInLine .read,
    .getInLine .write, .reset 0]).map (·.acqs.map InLine.signals) =
      some [(true, false), (true, false), (true, false)] := by
  decide

/-- The signals a queue has, position by position, when it has those of a queue behind
another part: the read signal while no writer is ahead, and the write signal at the head. -/
theorem signals_of_grants {noWriterAhead atHead : Bool} {acqs : List InLine}
    (signals : acqs.map InLine.signals = grants noWriterAhead atHead (acqs.map InLine.access))
    (i : Nat) (h : i < acqs.length) :
    (acqs[i].readPulsed = true ↔
        noWriterAhead = true ∧ ∀ j (hj : j < i), acqs[j].access = .read) ∧
      (acqs[i].writePulsed = true ↔ atHead = true ∧ i = 0 ∧ acqs[i].access = .write) := by
  induction acqs generalizing noWriterAhead atHead i with
  | nil => exact absurd h (Nat.not_lt_zero _)
  | cons p rest ih =>
    simp only [List.map_cons, grants, InLine.signals, List.cons.injEq, Prod.mk.injEq] at signals
    obtain ⟨⟨read, write⟩, restSignals⟩ := signals
    cases i with
    | zero =>
      simp only [List.getElem_cons_zero, read, write, Bool.and_eq_true, beq_iff_eq]
      constructor
      · refine ⟨fun ahead => ⟨ahead, fun j hj => absurd hj (Nat.not_lt_zero j)⟩, ?_⟩
        exact fun both => both.1
      · refine ⟨fun ⟨head, writer⟩ => ⟨head, trivial, writer⟩, ?_⟩
        exact fun ⟨head, _, writer⟩ => ⟨head, writer⟩
    | succ k =>
      -- behind `p`: no writer ahead means none ahead of `p` and `p` a reader
      obtain ⟨readRest, writeRest⟩ := ih restSignals k (by simpa using h)
      simp only [List.getElem_cons_succ, readRest, writeRest, Bool.and_eq_true, beq_iff_eq,
        Bool.false_eq_true, false_and, Nat.add_one_ne_zero, and_false]
      constructor
      · constructor
        · rintro ⟨⟨ahead, reader⟩, before⟩
          refine ⟨ahead, fun j hj => ?_⟩
          cases j with
          | zero => exact reader
          | succ j => exact before j (by omega)
        · rintro ⟨ahead, before⟩
          exact ⟨⟨ahead, before 0 (by omega)⟩, fun j hj => before (j + 1) (by omega)⟩
      · trivial

/-- A granted queue, position by position. -/
theorem Granted.getElem {acqs : List InLine} (granted : Granted acqs) (i : Nat)
    (h : i < acqs.length) :
    (acqs[i].readPulsed = true ↔ ∀ j (hj : j < i), acqs[j].access = .read) ∧
      (acqs[i].writePulsed = true ↔ acqs[i].access = .write ∧ i = 0) := by
  obtain ⟨read, write⟩ := signals_of_grants granted i h
  constructor
  · rw [read]
    exact ⟨fun both => both.2, fun before => ⟨rfl, before⟩⟩
  · rw [write]
    refine ⟨fun ⟨_, head, writer⟩ => ⟨writer, head⟩, ?_⟩
    exact fun ⟨writer, head⟩ => ⟨rfl, head, writer⟩

/-- A writer pulsed for write holds the lock alone. -/
theorem Granted.write_excludes {acqs : List InLine} (granted : Granted acqs) (i j : Nat)
    (hi : i < acqs.length) (hj : j < acqs.length) (other : i ≠ j)
    (writing : acqs[i].writePulsed = true) :
    acqs[j].readPulsed = false ∧ acqs[j].writePulsed = false := by
  obtain ⟨writer, head⟩ := (granted.getElem i hi).2.mp writing
  subst head
  have behind : 0 < j := Nat.pos_of_ne_zero (Ne.symm other)
  obtain ⟨read, write⟩ := granted.getElem j hj
  constructor
  · -- the writer at the head is ahead of `j`
    apply Bool.eq_false_iff.mpr
    intro pulsed
    have reader := read.mp pulsed 0 behind
    rw [writer] at reader
    exact Access.noConfusion reader
  · apply Bool.eq_false_iff.mpr
    intro pulsed
    exact other (write.mp pulsed).2.symm

theorem rwlock_grants_in_queue_order (events : List Event) :
    ∃ lock, Rwlock.empty.run events = some lock ∧
      (∀ i (h : i < lock.acqs.length),
        (lock.acqs[i].readPulsed = true ↔ ∀ j (hj : j < i), lock.acqs[j].access = .read) ∧
        (lock.acqs[i].writePulsed = true ↔ lock.acqs[i].access = .write ∧ i = 0)) ∧
      (∀ i j (hi : i < lock.acqs.length) (hj : j < lock.acqs.length), i ≠ j →
        lock.acqs[i].writePulsed = true →
          lock.acqs[j].readPulsed = false ∧ lock.acqs[j].writePulsed = false) ∧
      ∀ e, ∃ lock', lock.step e = some lock' ∧ lock.Raised lock' := by
  obtain ⟨lock, run, inv⟩ := Rwlock.run_spec events Rwlock.empty inv_empty
  refine ⟨lock, run, inv.granted.getElem, inv.granted.write_excludes, fun e => ?_⟩
  obtain ⟨next, step, -, raised⟩ := Rwlock.step_spec inv e
  exact ⟨next, step, raised⟩

end Concurrency
end RethinkDB
