import Xv6.Param
import Xv6.Lib.Run

/-! The process table of `kernel/proc.c`, with any number `n` of entries; the kernel is built with
`nproc`. Memory is modelled elsewhere: `kalloc` and `proc_pagetable` only say whether they succeed.
-/

namespace Xv6.Kernel

open Function

variable {n : Nat}

inductive ProcState
  | unused
  | used
  | sleeping
  | runnable
  | running
  | zombie
  deriving DecidableEq, Repr

/-- What processes sleep on: a `struct proc`, `&ticks`, the counters of a pipe, `&cons.r`, and what
no signal interrupts. -/
inductive Chan (n : Nat)
  | proc (p : Fin n)
  | ticks
  | nread (pi : Nat)
  | nwrite (pi : Nat)
  | cons
  | other (a : Nat)
  deriving DecidableEq, Repr

/-- `struct proc`.  Pointers are `none` where the kernel has 0; a new entry is all zeroes. -/
structure Proc (n : Nat) where
  state : ProcState := .unused
  chan : Option (Chan n) := none
  killed : Bool := false
  xstate : UInt32 := 0
  pid : UInt32 := 0
  parent : Option (Fin n) := none
  threadParent : Option (Fin n) := none
  deriving DecidableEq, Repr

def ProcState.alive : ProcState → Bool
  | sleeping | runnable | running => true
  | _ => false

def Proc.kill (v : Proc n) : Proc n :=
  { v with killed := true, state := if v.state = .sleeping then .runnable else v.state }

/-- `proc[]`, `nextpid` and `initproc`. The last two fields record the pids handed out and the
allocation that a process came from. -/
structure Table (n : Nat) where
  proc : Fin n → Proc n
  nextpid : UInt32
  initproc : Fin n
  issued : Nat
  birth : Fin n → Nat

namespace Table

variable (t : Table n)

def set (p : Fin n) (v : Proc n) : Table n := { t with proc := update t.proc p v }

def allocpid : UInt32 × Table n :=
  (t.nextpid, { t with nextpid := t.nextpid + 1, issued := t.issued + 1 })

def freeproc (p : Fin n) : Table n :=
  t.set p { state := .unused, chan := none, killed := false, xstate := 0, pid := 0, parent := none,
            threadParent := none }

def findUnused : Option (Fin n) :=
  (List.finRange n).find? fun p => (t.proc p).state = .unused

/-- What `allocproc` and `allocthread` do first to the entry `p` that they found. -/
def take (p : Fin n) : Table n :=
  let (pid, t) := t.allocpid
  { t.set p { t.proc p with pid := pid, state := .used } with
    birth := update t.birth p t.issued }

/-- `allocproc`, where `mem` says whether `kalloc` and `proc_pagetable` succeed. -/
def allocproc (mem : Bool) : Option (Fin n) × Table n :=
  match t.findUnused with
  | none => (none, t)
  | some p => if mem then (some p, t.take p) else (none, (t.take p).freeproc p)

def takeThread (parent p : Fin n) : Table n :=
  (t.take p).set p { (t.take p).proc p with parent := some parent }

/-- `allocthread`, where `mem` says whether both calls of `kalloc` succeed. -/
def allocthread (parent : Fin n) (mem : Bool) : Option (Fin n) × Table n :=
  match t.findUnused with
  | none => (none, t)
  | some p =>
    let t := t.takeThread parent p
    if mem then
      (some p, t.set p { t.proc p with threadParent := some parent, killed := false, xstate := 0 })
    else (none, t.freeproc p)

/-- `wakeup(chan)` in the process `me`, or outside any process. -/
def wakeup (me : Option (Fin n)) (chan : Option (Chan n)) : Table n :=
  { t with proc := fun p =>
      if some p ≠ me ∧ (t.proc p).state = .sleeping ∧ (t.proc p).chan = chan then
        { t.proc p with state := .runnable }
      else t.proc p }

/-- `kill(pid)`: whether it found the pid, and the table after it. -/
def kill (pid : UInt32) : Bool × Table n :=
  match (List.finRange n).find? fun p => (t.proc p).pid = pid with
  | none => (false, t)
  | some p => (true, t.set p (t.proc p).kill)

def setkilled (p : Fin n) : Table n := t.set p { t.proc p with killed := true }

/-- The body of `reparent`'s loop, for the entry `pp`. -/
def reparentOne (p pp : Fin n) : Table n :=
  if (t.proc pp).parent = some p then
    (t.set pp { t.proc pp with parent := some t.initproc }).wakeup (some p)
      (some (.proc t.initproc))
  else t

def reparent (p : Fin n) : Table n :=
  (List.finRange n).foldl (fun t pp => t.reparentOne p pp) t

/-- The section of `exit` under `wait_lock`, with the switch to the scheduler that ends it. -/
def exit (p : Fin n) (status : UInt32) : Table n :=
  let t := t.reparent p
  let t := t.wakeup (some p) ((t.proc p).parent.map .proc)
  t.set p { t.proc p with xstate := status, state := .zombie }

def IsChild (p pp : Fin n) : Prop := (t.proc pp).parent = some p

instance (p pp : Fin n) : Decidable (t.IsChild p pp) := inferInstanceAs (Decidable (_ = _))

def findZombie (p : Fin n) : Option (Fin n) :=
  (List.finRange n).find? fun pp => t.IsChild p pp ∧ (t.proc pp).state = .zombie

def havekids (p : Fin n) : Prop := ∃ pp, t.IsChild p pp

instance (p : Fin n) : Decidable (t.havekids p) := inferInstanceAs (Decidable (∃ _, _))

def findThread (p : Fin n) : Option (Fin n) :=
  (List.finRange n).find? fun pp =>
    (t.proc pp).threadParent = some p ∧ (t.proc pp).state = .zombie

section Lemmas

variable {t} {p q pp : Fin n} {v : Proc n} {me : Option (Fin n)} {chan : Option (Chan n)}

@[simp] theorem set_self : (t.set p v).proc p = v := update_self ..

theorem set_of_ne (h : q ≠ p) : (t.set p v).proc q = t.proc q := update_of_ne h ..

theorem set_proc : (t.set p v).proc q = if q = p then v else t.proc q :=
  update_apply ..

theorem freeproc_proc : (t.freeproc p).proc q = if q = p then {} else t.proc q := set_proc

theorem take_proc : (t.take p).proc q =
    if q = p then { t.proc p with pid := t.nextpid, state := .used } else t.proc q := set_proc

theorem take_birth : (t.take p).birth q = if q = p then t.issued + 1 else t.birth q :=
  update_apply ..

@[simp] theorem freeproc_birth : (t.freeproc p).birth = t.birth := rfl
@[simp] theorem take_nextpid : (t.take p).nextpid = t.nextpid + 1 := rfl
@[simp] theorem take_issued : (t.take p).issued = t.issued + 1 := rfl

theorem wakeup_proc : (t.wakeup me chan).proc q =
    { t.proc q with
      state := if some q ≠ me ∧ (t.proc q).state = .sleeping ∧ (t.proc q).chan = chan then
        .runnable else (t.proc q).state } := by
  simp only [wakeup]
  split <;> rfl

@[simp] theorem wakeup_chan : ((t.wakeup me chan).proc q).chan = (t.proc q).chan := by
  rw [wakeup_proc]
@[simp] theorem wakeup_xstate : ((t.wakeup me chan).proc q).xstate = (t.proc q).xstate := by
  rw [wakeup_proc]
@[simp] theorem wakeup_pid : ((t.wakeup me chan).proc q).pid = (t.proc q).pid := by
  rw [wakeup_proc]
@[simp] theorem wakeup_parent : ((t.wakeup me chan).proc q).parent = (t.proc q).parent := by
  rw [wakeup_proc]
@[simp] theorem wakeup_threadParent :
    ((t.wakeup me chan).proc q).threadParent = (t.proc q).threadParent := by
  rw [wakeup_proc]

theorem wakeup_state_eq (t : Table n) (me : Option (Fin n)) (chan : Option (Chan n))
    (q : Fin n) :
    ((t.wakeup me chan).proc q).state = (t.proc q).state ∨
    (t.proc q).state = .sleeping ∧ ((t.wakeup me chan).proc q).state = .runnable := by
  rw [wakeup_proc]
  split <;> simp_all

theorem sleeping_of_wakeup (h : ((t.wakeup me chan).proc q).state = .sleeping) :
    (t.proc q).state = .sleeping ∧ (some q = me ∨ (t.proc q).chan ≠ chan) := by
  rw [wakeup_proc] at h
  split at h
  · cases h
  · exact ⟨h, by grind⟩

theorem kill_cases (t : Table n) (pid : UInt32) :
    (t.kill pid = (false, t) ∧ ∀ q, (t.proc q).pid ≠ pid) ∨
    ∃ q, (t.proc q).pid = pid ∧ t.kill pid = (true, t.set q (t.proc q).kill) := by
  unfold kill
  split
  next h => exact .inl ⟨rfl, fun q => by simpa using List.find?_eq_none.mp h q (by simp)⟩
  next q h => exact .inr ⟨q, by simpa using List.find?_some h, rfl⟩

theorem findUnused_some (h : t.findUnused = some p) : (t.proc p).state = .unused := by
  simpa using List.find?_some h

theorem allocproc_cases (t : Table n) (mem : Bool) :
    t.allocproc mem = (none, t) ∨ ∃ np, t.findUnused = some np ∧
      (t.allocproc mem = (none, (t.take np).freeproc np) ∨
        t.allocproc mem = (some np, t.take np)) := by
  unfold allocproc
  cases hf : t.findUnused with
  | none => exact .inl rfl
  | some np => cases mem <;> exact .inr ⟨np, rfl, by simp⟩

theorem takeThread_proc {parent : Fin n} : (t.takeThread parent p).proc q =
    if q = p then { t.proc p with pid := t.nextpid, state := .used, parent := some parent }
    else t.proc q := by
  rw [takeThread, set_proc, take_proc, take_proc]
  split <;> simp

def newThread (t : Table n) (parent np : Fin n) : Proc n :=
  { t.proc np with
    pid := t.nextpid, state := .used, parent := some parent, threadParent := some parent
    killed := false, xstate := 0 }

theorem allocthread_cases (t : Table n) (parent : Fin n) (mem : Bool) :
    t.allocthread parent mem = (none, t) ∨ ∃ np, t.findUnused = some np ∧
      (t.allocthread parent mem = (none, (t.takeThread parent np).freeproc np) ∨
        t.allocthread parent mem =
          (some np, (t.takeThread parent np).set np (t.newThread parent np))) := by
  unfold allocthread
  cases hf : t.findUnused with
  | none => exact .inl rfl
  | some np => cases mem <;> exact .inr ⟨np, rfl, by simp [takeThread_proc, newThread]⟩

theorem findZombie_some (h : t.findZombie p = some pp) :
    t.IsChild p pp ∧ (t.proc pp).state = .zombie := by
  simpa using List.find?_some h

theorem findZombie_none (h : t.findZombie p = none) (child : t.IsChild p pp) :
    (t.proc pp).state ≠ .zombie := by
  have := List.find?_eq_none.mp h pp (List.mem_finRange pp)
  simp_all

theorem findThread_some (h : t.findThread p = some pp) :
    (t.proc pp).threadParent = some p ∧ (t.proc pp).state = .zombie := by
  simpa using List.find?_some h

end Lemmas

/-- `t'` is `t` with other parents and with some sleepers made runnable. -/
structure Moved (t t' : Table n) : Prop where
  entry : ∀ q, ∃ st parent, t'.proc q = { t.proc q with state := st, parent := parent } ∧
    (st = (t.proc q).state ∨ (t.proc q).state = .sleeping ∧ st = .runnable)
  nextpid : t'.nextpid = t.nextpid
  initproc : t'.initproc = t.initproc
  issued : t'.issued = t.issued
  birth : t'.birth = t.birth

namespace Moved

variable {t t' t'' : Table n} {q : Fin n}

theorem refl (t : Table n) : Moved t t := ⟨fun _ => ⟨_, _, rfl, .inl rfl⟩, rfl, rfl, rfl, rfl⟩

theorem trans (h : Moved t t') (h' : Moved t' t'') : Moved t t'' where
  entry q := by
    obtain ⟨st, parent, hq, hst⟩ := h.entry q
    obtain ⟨st', parent', hq', hst'⟩ := h'.entry q
    refine ⟨st', parent', by rw [hq', hq], ?_⟩
    rw [hq] at hst'
    grind
  nextpid := h'.nextpid.trans h.nextpid
  initproc := h'.initproc.trans h.initproc
  issued := h'.issued.trans h.issued
  birth := h'.birth.trans h.birth

theorem wakeup (t : Table n) (me chan) : Moved t (t.wakeup me chan) :=
  ⟨fun q => ⟨_, _, wakeup_proc, by split <;> simp_all⟩, rfl, rfl, rfl, rfl⟩

theorem setParent (t : Table n) (p : Fin n) (parent) :
    Moved t (t.set p { t.proc p with parent := parent }) where
  entry q := by
    by_cases h : q = p
    · subst h
      exact ⟨_, parent, set_self, .inl rfl⟩
    · exact ⟨_, _, set_of_ne h, .inl rfl⟩
  nextpid := rfl
  initproc := rfl
  issued := rfl
  birth := rfl

theorem reparentOne (t : Table n) (p pp : Fin n) : Moved t (t.reparentOne p pp) := by
  unfold Table.reparentOne
  split
  · exact (setParent t pp _).trans (wakeup _ _ _)
  · exact refl t

theorem foldl_reparentOne (p : Fin n) (l : List (Fin n)) (t : Table n) :
    Moved t (l.foldl (fun t pp => t.reparentOne p pp) t) := by
  induction l generalizing t with
  | nil => exact refl t
  | cons pp l ih => exact (reparentOne t p pp).trans (ih _)

theorem reparent (t : Table n) (p : Fin n) : Moved t (t.reparent p) := foldl_reparentOne p _ t

variable (h : Moved t t')
include h

theorem chan : (t'.proc q).chan = (t.proc q).chan := by
  obtain ⟨st, parent, hq, -⟩ := h.entry q
  rw [hq]

theorem killed : (t'.proc q).killed = (t.proc q).killed := by
  obtain ⟨st, parent, hq, -⟩ := h.entry q
  rw [hq]

theorem xstate : (t'.proc q).xstate = (t.proc q).xstate := by
  obtain ⟨st, parent, hq, -⟩ := h.entry q
  rw [hq]

theorem pid : (t'.proc q).pid = (t.proc q).pid := by
  obtain ⟨st, parent, hq, -⟩ := h.entry q
  rw [hq]

theorem threadParent : (t'.proc q).threadParent = (t.proc q).threadParent := by
  obtain ⟨st, parent, hq, -⟩ := h.entry q
  rw [hq]

theorem state : (t'.proc q).state = (t.proc q).state ∨
    (t.proc q).state = .sleeping ∧ (t'.proc q).state = .runnable := by
  obtain ⟨st, parent, hq, hst⟩ := h.entry q
  rwa [hq]

end Moved

section Reparent

variable {t} {p q : Fin n}

theorem reparentOne_parent (pp : Fin n) : ((t.reparentOne p pp).proc q).parent =
    if q = pp ∧ (t.proc q).parent = some p then some t.initproc else (t.proc q).parent := by
  unfold reparentOne
  split
  · rw [wakeup_parent, set_proc]
    split <;> simp_all
  · grind

theorem foldl_reparentOne_parent (l : List (Fin n)) :
    ((l.foldl (fun t pp => t.reparentOne p pp) t).proc q).parent =
      if q ∈ l ∧ (t.proc q).parent = some p then some t.initproc else (t.proc q).parent := by
  induction l generalizing t with
  | nil => simp
  | cons pp l ih =>
    rw [List.foldl_cons, ih, reparentOne_parent, (Moved.reparentOne t p pp).initproc]
    grind

theorem reparent_parent : ((t.reparent p).proc q).parent =
    if (t.proc q).parent = some p then some t.initproc else (t.proc q).parent := by
  rw [reparent, foldl_reparentOne_parent]
  simp

theorem reparentOne_wakes (child : (t.proc q).parent = some p) (hp : p ≠ t.initproc) :
    ((t.reparentOne p q).proc t.initproc).state = .sleeping →
      (t.proc t.initproc).chan ≠ some (.proc t.initproc) := by
  intro hs
  rw [reparentOne, if_pos child] at hs
  have h := (sleeping_of_wakeup hs).2.resolve_left (by simpa using hp.symm)
  rwa [(Moved.setParent t q _).chan] at h

theorem foldl_reparentOne_wakes (l : List (Fin n)) (mem : q ∈ l)
    (child : (t.proc q).parent = some p) (hp : p ≠ t.initproc) :
    ((l.foldl (fun t pp => t.reparentOne p pp) t).proc t.initproc).state = .sleeping →
      (t.proc t.initproc).chan ≠ some (.proc t.initproc) := by
  induction l generalizing t with
  | nil => cases mem
  | cons pp l ih =>
    intro hs
    have one := Moved.reparentOne t p pp
    have rest := Moved.foldl_reparentOne p l (t.reparentOne p pp)
    by_cases hq : q = pp
    · subst hq
      have still : ((t.reparentOne p q).proc t.initproc).state = .sleeping := by
        rcases rest.state (q := t.initproc) with h | h
        · exact h ▸ hs
        · exact h.1
      exact reparentOne_wakes child hp still
    · have hmem : q ∈ l := (List.mem_cons.mp mem).resolve_left hq
      have := ih (t := t.reparentOne p pp) hmem (by rw [reparentOne_parent]; simp [hq, child])
        (one.initproc ▸ hp)
      rw [one.initproc, one.chan] at this
      exact this hs

/-- If `p` has a child, `reparent(p)` leaves `initproc` awake, unless it sleeps elsewhere than in
`wait`. -/
theorem reparent_wakes (child : (t.proc q).parent = some p) (hp : p ≠ t.initproc)
    (hs : ((t.reparent p).proc t.initproc).state = .sleeping) :
    (t.proc t.initproc).chan ≠ some (.proc t.initproc) :=
  foldl_reparentOne_wakes _ (List.mem_finRange q) child hp hs

end Reparent

section Exit

variable {t} {p q : Fin n} {status : UInt32}

/-- The table of `exit` before the entry of the process itself is changed. -/
def handOver (t : Table n) (p : Fin n) : Table n :=
  (t.reparent p).wakeup (some p) (((t.reparent p).proc p).parent.map .proc)

theorem exit_eq : t.exit p status =
    (t.handOver p).set p { (t.handOver p).proc p with xstate := status, state := .zombie } := rfl

theorem Moved.handOver (t : Table n) (p : Fin n) : Moved t (t.handOver p) :=
  (Moved.reparent t p).trans (Moved.wakeup _ _ _)

theorem exit_self : (t.exit p status).proc p =
    { (t.handOver p).proc p with xstate := status, state := .zombie } := set_self

theorem exit_of_ne (h : q ≠ p) : (t.exit p status).proc q = (t.handOver p).proc q := set_of_ne h

@[simp] theorem exit_birth : (t.exit p status).birth = t.birth := (Moved.handOver t p).birth
@[simp] theorem exit_issued : (t.exit p status).issued = t.issued := (Moved.handOver t p).issued
@[simp] theorem exit_initproc : (t.exit p status).initproc = t.initproc :=
  (Moved.handOver t p).initproc

theorem exit_parent : ((t.exit p status).proc q).parent =
    if (t.proc q).parent = some p then some t.initproc else (t.proc q).parent := by
  have handed : ((t.handOver p).proc q).parent =
      if (t.proc q).parent = some p then some t.initproc else (t.proc q).parent := by
    rw [handOver, wakeup_parent, reparent_parent]
  rw [← handed]
  by_cases h : q = p
  · subst h; rw [exit_self]
  · rw [exit_of_ne h]

theorem exit_alive (h : q ≠ p) (alive : (t.proc q).state.alive) :
    ((t.exit p status).proc q).state.alive := by
  rw [exit_of_ne h]
  rcases (Moved.handOver t p).state (q := q) with hs | ⟨-, hs⟩ <;> rw [hs]
  · exact alive
  · rfl

theorem exit_dead (h : q ≠ p) {st : ProcState} (dead : st.alive = false) :
    ((t.exit p status).proc q).state = st ↔ (t.proc q).state = st := by
  rw [exit_of_ne h]
  rcases (Moved.handOver t p).state (q := q) with hs | ⟨hs, hs'⟩
  · rw [hs]
  · rw [hs, hs']
    constructor <;> rintro rfl <;> cases dead

theorem exit_pid : ((t.exit p status).proc q).pid = (t.proc q).pid := by
  by_cases h : q = p
  · subst h; rw [exit_self]; exact (Moved.handOver t q).pid
  · rw [exit_of_ne h]; exact (Moved.handOver t p).pid

theorem exit_threadParent : ((t.exit p status).proc q).threadParent = (t.proc q).threadParent := by
  by_cases h : q = p
  · subst h; rw [exit_self]; exact (Moved.handOver t q).threadParent
  · rw [exit_of_ne h]; exact (Moved.handOver t p).threadParent

theorem exit_xstate (h : q ≠ p) : ((t.exit p status).proc q).xstate = (t.proc q).xstate := by
  rw [exit_of_ne h]; exact (Moved.handOver t p).xstate

end Exit

end Table

def Table.zero (n : Nat) [NeZero n] : Table n where
  proc := fun _ => {}
  nextpid := 1
  initproc := 0
  issued := 0
  birth := fun _ => 0

end Xv6.Kernel
