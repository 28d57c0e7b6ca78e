import Xv6.Kernel.Table

/-! `sleep`, `wakeup`, `yield` and the scheduler with every acquire, release, change of a state and
switch as a step, for any number of processes and processors. A process's lock passes to the
scheduler when it switches out, and back. -/

namespace Xv6.Sched

open Transition Kernel
open Function (update)

/-- Why a process is switched out: in `sleep(chan, ..)`, in `yield`, or before its first run. -/
inductive Why (χ : Type)
  | sleep (chan : χ)
  | yield
  | start
  deriving DecidableEq

/-- What the kernel thread of a process does next. -/
inductive Pc (n : Nat) (χ : Type)
  /-- code outside the modelled functions -/
  | run
  /-- `sleep`: `acquire(&p->lock)`, `release(lk)`, and the assignments of `chan` and `state` -/
  | sleepAcquire (chan : χ)
  | sleepRelease (chan : χ)
  | sleepSet (chan : χ)
  /-- the switch to the scheduler, with `p->lock` held -/
  | sched (why : Why χ)
  /-- switched out -/
  | out (why : Why χ)
  /-- switched back, with `p->lock` held: `p->chan = 0` in `sleep`, else `release(&p->lock)` -/
  | back (why : Why χ)
  /-- `sleep`: `release(&p->lock)` and `acquire(lk)` at its end -/
  | sleepUnlock (chan : χ)
  | sleepRelock (chan : χ)
  /-- `yield`: `acquire(&p->lock)` and `p->state = RUNNABLE` -/
  | yieldAcquire
  | yieldSet
  /-- `wakeup`: the loop at entry `i`, the test under the lock of `i`, and its release -/
  | wakeAcquire (chan : χ) (i : Nat)
  | wakeTest (chan : χ) (i : Fin n)
  | wakeRelease (chan : χ) (i : Fin n)
  deriving DecidableEq

/-- What the scheduler of a processor does next; while a process runs on the processor, nothing. -/
inductive Cpu (n : Nat)
  | acquire (i : Fin n)
  | test (i : Fin n)
  | running (p : Fin n)
  | release (i : Fin n)
  deriving DecidableEq

/-- The holder of a process's lock. -/
inductive Holder (n : Nat)
  | proc (p : Fin n)
  | cpu (c : Nat)
  deriving DecidableEq

/-- The processes, the locks and the processors. `noff` counts the locks besides a process's own.
The last three fields record the run: the calls of `sleep` of a process; which processes had given
up a lock in a `sleep` that they were still in when a process last acquired it; and those so
recorded for a `wakeup` that has returned. -/
structure State (n : Nat) (κ χ : Type) where
  state : Fin n → ProcState
  chan : Fin n → Option χ
  pc : Fin n → Pc n χ
  plock : Fin n → Option (Holder n)
  lk : κ → Option (Fin n)
  noff : Fin n → Nat
  cpu : Nat → Cpu n
  calls : Fin n → Nat
  gave : Fin n → κ → Fin n → Option (χ × Nat)
  done : Fin n → Nat → Bool

/-- The choices of a process outside the modelled functions, on the processor `c`, and the next
step of whatever runs there. -/
inductive Label (κ χ : Type)
  | acquire (c : Nat) (k : κ)
  | release (c : Nat) (k : κ)
  | sleep (c : Nat) (chan : χ)
  | wakeup (c : Nat) (chan : χ)
  | yield (c : Nat)
  | next (c : Nat)

variable {n : Nat} {κ χ : Type} [DecidableEq κ] [DecidableEq χ]

/-- The channel of the `sleep` in which a process has given up the lock and not got it back. -/
def Pc.gaveUp : Pc n χ → Option χ
  | sleepSet chan | sched (.sleep chan) | out (.sleep chan) | back (.sleep chan)
  | sleepUnlock chan | sleepRelock chan => some chan
  | _ => none

namespace State

variable (s : State n κ χ)

def setPc (p : Fin n) (pc : Pc n χ) : State n κ χ := { s with pc := update s.pc p pc }

def setState (p : Fin n) (st : ProcState) : State n κ χ :=
  { s with state := update s.state p st }

def setChan (p : Fin n) (chan : Option χ) : State n κ χ :=
  { s with chan := update s.chan p chan }

def setPlock (p : Fin n) (h : Option (Holder n)) : State n κ χ :=
  { s with plock := update s.plock p h }

def setCpu (c : Nat) (cpu : Cpu n) : State n κ χ := { s with cpu := update s.cpu c cpu }

/-- `acquire(lk)` by `p`, with the record of who has given it up. -/
def acquire (lockOf : χ → κ) (p : Fin n) (k : κ) : State n κ χ :=
  { s with
    lk := update s.lk k (some p)
    noff := update s.noff p (s.noff p + 1)
    gave := update s.gave p (update (s.gave p) k fun q =>
      ((s.pc q).gaveUp.filter fun chan => lockOf chan = k).map fun chan => (chan, s.calls q)) }

def release (p : Fin n) (k : κ) : State n κ χ :=
  { s with
    lk := update s.lk k none
    noff := update s.noff p (s.noff p - 1) }

def woke (lockOf : χ → κ) (p : Fin n) (chan : χ) : State n κ χ :=
  { s with done := fun q call => s.done q call || s.gave p (lockOf chan) q = some (chan, call) }

/-- The next step of the process `p` on the processor `c`.  `sched` panics when another lock is
held. -/
def procStep (lockOf : χ → κ) (c : Nat) (p : Fin n) : Option (State n κ χ) :=
  match s.pc p with
  | .run => none
  | .sleepAcquire chan =>
    if s.plock p = none then
      some ((s.setPlock p (some (.proc p))).setPc p (.sleepRelease chan))
    else none
  | .sleepRelease chan => some ((s.release p (lockOf chan)).setPc p (.sleepSet chan))
  | .sleepSet chan =>
    some (((s.setChan p (some chan)).setState p .sleeping).setPc p (.sched (.sleep chan)))
  | .sched why =>
    if s.noff p = 0 then
      some (((s.setPlock p (some (.cpu c))).setCpu c (.release p)).setPc p (.out why))
    else none
  | .out _ => none
  | .back (.sleep chan) => some ((s.setChan p none).setPc p (.sleepUnlock chan))
  | .back .yield | .back .start => some ((s.setPlock p none).setPc p .run)
  | .sleepUnlock chan => some ((s.setPlock p none).setPc p (.sleepRelock chan))
  | .sleepRelock chan =>
    if s.lk (lockOf chan) = none then some ((s.acquire lockOf p (lockOf chan)).setPc p .run)
    else none
  | .yieldAcquire =>
    if s.plock p = none then some ((s.setPlock p (some (.proc p))).setPc p .yieldSet) else none
  | .yieldSet => some ((s.setState p .runnable).setPc p (.sched .yield))
  | .wakeAcquire chan i =>
    if h : i < n then
      if (⟨i, h⟩ : Fin n) = p then some (s.setPc p (.wakeAcquire chan (i + 1)))
      else if s.plock ⟨i, h⟩ = none then
        some ((s.setPlock ⟨i, h⟩ (some (.proc p))).setPc p (.wakeTest chan ⟨i, h⟩))
      else none
    else some ((s.woke lockOf p chan).setPc p .run)
  | .wakeTest chan i =>
    let s' := if s.state i = .sleeping ∧ s.chan i = some chan then s.setState i .runnable else s
    some (s'.setPc p (.wakeRelease chan i))
  | .wakeRelease chan i => some ((s.setPlock i none).setPc p (.wakeAcquire chan (i + 1)))

/-- The next step of the scheduler of the processor `c`, or of the process that runs there. -/
def cpuStep [NeZero n] (lockOf : χ → κ) (c : Nat) : Option (State n κ χ) :=
  match s.cpu c with
  | .acquire i =>
    if s.plock i = none then some ((s.setPlock i (some (.cpu c))).setCpu c (.test i)) else none
  | .test i =>
    if s.state i = .runnable then
      match s.pc i with
      | .out why =>
        some ((((s.setState i .running).setPlock i (some (.proc i))).setCpu c (.running i)).setPc i
          (.back why))
      | _ => none
    else some (s.setCpu c (.release i))
  | .release i => some ((s.setPlock i none).setCpu c (.acquire (i + 1)))
  | .running p => s.procStep lockOf c p

/-- The process that runs on the processor `c`, if it is outside the modelled functions. -/
def free (c : Nat) : Option (Fin n) :=
  match s.cpu c with
  | .running p => if s.pc p = .run then some p else none
  | _ => none

end State

/-- `sleep(chan, lk)` and `wakeup(chan)` are called by a holder of the lock of the channel; a timer
interrupt makes a process `yield` only when it holds no lock. -/
def step [NeZero n] (lockOf : χ → κ) : Label κ χ → State n κ χ → Option (State n κ χ)
  | .acquire c k, s => (s.free c).bind fun p =>
    if s.lk k = none then some (s.acquire lockOf p k) else none
  | .release c k, s => (s.free c).bind fun p =>
    if s.lk k = some p then some (s.release p k) else none
  | .sleep c chan, s => (s.free c).bind fun p =>
    if s.lk (lockOf chan) = some p then
      some ({ s with calls := update s.calls p (s.calls p + 1) }.setPc p
        (.sleepAcquire chan))
    else none
  | .wakeup c chan, s => (s.free c).bind fun p =>
    if s.lk (lockOf chan) = some p then some (s.setPc p (.wakeAcquire chan 0)) else none
  | .yield c, s => (s.free c).bind fun p =>
    if s.noff p = 0 then some (s.setPc p .yieldAcquire) else none
  | .next c, s => s.cpuStep lockOf c

/-- The steps as a relation: those of a process `p` that runs on the processor `c`, and those of
the schedulers. -/
inductive Step [NeZero n] (lockOf : χ → κ) (s : State n κ χ) : State n κ χ → Prop
  | acquire {p k} (at_ : s.pc p = .run) (lock : s.lk k = none) : Step lockOf s (s.acquire lockOf p k)
  | release {p k} (at_ : s.pc p = .run) (lock : s.lk k = some p) : Step lockOf s (s.release p k)
  | sleep {p chan} (at_ : s.pc p = .run) (lock : s.lk (lockOf chan) = some p) :
      Step lockOf s ({ s with calls := update s.calls p (s.calls p + 1) }.setPc p
        (.sleepAcquire chan))
  | wakeup {p chan} (at_ : s.pc p = .run) (lock : s.lk (lockOf chan) = some p) :
      Step lockOf s (s.setPc p (.wakeAcquire chan 0))
  | yield {p} (at_ : s.pc p = .run) : Step lockOf s (s.setPc p .yieldAcquire)
  | sleepAcquire {p chan} (at_ : s.pc p = .sleepAcquire chan) (lock : s.plock p = none) :
      Step lockOf s ((s.setPlock p (some (.proc p))).setPc p (.sleepRelease chan))
  | sleepRelease {p chan} (at_ : s.pc p = .sleepRelease chan) :
      Step lockOf s ((s.release p (lockOf chan)).setPc p (.sleepSet chan))
  | sleepSet {p chan} (at_ : s.pc p = .sleepSet chan) :
      Step lockOf s (((s.setChan p (some chan)).setState p .sleeping).setPc p (.sched (.sleep chan)))
  | sched {p c why} (at_ : s.pc p = .sched why) (on : s.cpu c = .running p) :
      Step lockOf s (((s.setPlock p (some (.cpu c))).setCpu c (.release p)).setPc p (.out why))
  | backSleep {p chan} (at_ : s.pc p = .back (.sleep chan)) :
      Step lockOf s ((s.setChan p none).setPc p (.sleepUnlock chan))
  | back {p why} (at_ : s.pc p = .back why) (awake : ∀ chan, why ≠ .sleep chan) :
      Step lockOf s ((s.setPlock p none).setPc p .run)
  | sleepUnlock {p chan} (at_ : s.pc p = .sleepUnlock chan) :
      Step lockOf s ((s.setPlock p none).setPc p (.sleepRelock chan))
  | sleepRelock {p chan} (at_ : s.pc p = .sleepRelock chan) (lock : s.lk (lockOf chan) = none) :
      Step lockOf s ((s.acquire lockOf p (lockOf chan)).setPc p .run)
  | yieldAcquire {p} (at_ : s.pc p = .yieldAcquire) (lock : s.plock p = none) :
      Step lockOf s ((s.setPlock p (some (.proc p))).setPc p .yieldSet)
  | yieldSet {p} (at_ : s.pc p = .yieldSet) :
      Step lockOf s ((s.setState p .runnable).setPc p (.sched .yield))
  | wakeSkip {p chan} (at_ : s.pc p = .wakeAcquire chan p.val) :
      Step lockOf s (s.setPc p (.wakeAcquire chan (p.val + 1)))
  | wakeAcquire {p chan} {i : Fin n} (at_ : s.pc p = .wakeAcquire chan i.val) (ne : i ≠ p)
      (lock : s.plock i = none) :
      Step lockOf s ((s.setPlock i (some (.proc p))).setPc p (.wakeTest chan i))
  | wakeDone {p chan i} (at_ : s.pc p = .wakeAcquire chan i) (all : n ≤ i) :
      Step lockOf s ((s.woke lockOf p chan).setPc p .run)
  | wakeSleeper {p chan i} (at_ : s.pc p = .wakeTest chan i) (asleep : s.state i = .sleeping)
      (on : s.chan i = some chan) :
      Step lockOf s ((s.setState i .runnable).setPc p (.wakeRelease chan i))
  | wakeOther {p chan i} (at_ : s.pc p = .wakeTest chan i)
      (other : ¬(s.state i = .sleeping ∧ s.chan i = some chan)) :
      Step lockOf s (s.setPc p (.wakeRelease chan i))
  | wakeRelease {p chan i} (at_ : s.pc p = .wakeRelease chan i) :
      Step lockOf s ((s.setPlock i none).setPc p (.wakeAcquire chan (i.val + 1)))
  | cpuAcquire {c i} (on : s.cpu c = .acquire i) (lock : s.plock i = none) :
      Step lockOf s ((s.setPlock i (some (.cpu c))).setCpu c (.test i))
  | pick {c i why} (on : s.cpu c = .test i) (ready : s.state i = .runnable)
      (at_ : s.pc i = .out why) :
      Step lockOf s ((((s.setState i .running).setPlock i (some (.proc i))).setCpu c
        (.running i)).setPc i (.back why))
  | cpuPass {c i} (on : s.cpu c = .test i) : Step lockOf s (s.setCpu c (.release i))
  | cpuRelease {c i} (on : s.cpu c = .release i) :
      Step lockOf s ((s.setPlock i none).setCpu c (.acquire (i + 1)))

section

variable [NeZero n] {lockOf : χ → κ} {s s' : State n κ χ}

omit [DecidableEq κ] [NeZero n] in
/-- A choice of the process that runs on the processor `c`, under a guard. -/
theorem State.free_bind {c : Nat} [DecidablePred g] {f : Fin n → State n κ χ}
    (h : ((s.free c).bind fun p => if g p then some (f p) else none) = some s') :
    ∃ p, s.pc p = .run ∧ g p ∧ s' = f p := by
  obtain ⟨p, hp, hstep⟩ := Option.bind_eq_some_iff.mp h
  refine ⟨p, ?_, guarded hstep⟩
  unfold State.free at hp
  split at hp
  · exact (guarded hp).2 ▸ (guarded hp).1
  · cases hp

theorem procStep_sound (on : s.cpu c = .running p)
    (h : s.procStep lockOf c p = some s') : Step lockOf s s' := by
  unfold State.procStep at h
  split at h
  next => cases h
  next chan at_ =>
    obtain ⟨lock, rfl⟩ := guarded h
    exact .sleepAcquire at_ lock
  next chan at_ => cases h; exact .sleepRelease at_
  next chan at_ => cases h; exact .sleepSet at_
  next why at_ =>
    obtain ⟨-, rfl⟩ := guarded h
    exact .sched at_ on
  next => cases h
  next chan at_ => cases h; exact .backSleep at_
  next at_ => cases h; exact .back at_ nofun
  next at_ => cases h; exact .back at_ nofun
  next chan at_ => cases h; exact .sleepUnlock at_
  next chan at_ =>
    obtain ⟨lock, rfl⟩ := guarded h
    exact .sleepRelock at_ lock
  next at_ =>
    obtain ⟨lock, rfl⟩ := guarded h
    exact .yieldAcquire at_ lock
  next at_ => cases h; exact .yieldSet at_
  next chan i at_ =>
    split at h
    next hi =>
      split at h
      next heq =>
        cases h
        subst heq
        exact .wakeSkip at_
      next hne =>
        obtain ⟨lock, rfl⟩ := guarded h
        exact .wakeAcquire at_ hne lock
    next hi => cases h; exact .wakeDone at_ (by omega)
  next chan i at_ =>
    cases h
    split
    next both => exact .wakeSleeper at_ both.1 both.2
    next other => exact .wakeOther at_ other
  next chan i at_ => cases h; exact .wakeRelease at_

theorem step_sound {l : Label κ χ} (h : step lockOf l s = some s') : Step lockOf s s' := by
  cases l with
  | next c =>
    simp only [step, State.cpuStep] at h
    split at h
    next i on =>
      obtain ⟨lock, rfl⟩ := guarded h
      exact .cpuAcquire on lock
    next i on =>
      split at h
      next ready =>
        split at h
        next why at_ => cases h; exact .pick on ready at_
        next => cases h
      next => cases h; exact .cpuPass on
    next i on => cases h; exact .cpuRelease on
    next p on => exact procStep_sound on h
  | acquire c k =>
    obtain ⟨p, run, lock, rfl⟩ := State.free_bind h
    exact .acquire run lock
  | release c k =>
    obtain ⟨p, run, lock, rfl⟩ := State.free_bind h
    exact .release run lock
  | sleep c chan =>
    obtain ⟨p, run, lock, rfl⟩ := State.free_bind h
    exact .sleep run lock
  | wakeup c chan =>
    obtain ⟨p, run, lock, rfl⟩ := State.free_bind h
    exact .wakeup run lock
  | yield c =>
    obtain ⟨p, run, -, rfl⟩ := State.free_bind h
    exact .yield run

end

/-- Processes that wait for their first run, and schedulers at the start of their loops. -/
def boot (κ χ : Type) [NeZero n] (live : Fin n → Bool) : State n κ χ where
  state := fun p => if live p then .runnable else .unused
  chan := fun _ => none
  pc := fun _ => .out .start
  plock := fun _ => none
  lk := fun _ => none
  noff := fun _ => 0
  cpu := fun _ => .acquire 0
  calls := fun _ => 0
  gave := fun _ _ _ => none
  done := fun _ _ => false

abbrev Reach [NeZero n] (lockOf : χ → κ) (live : Fin n → Bool) : State n κ χ → Prop :=
  Transition.Reach (step lockOf) (fun _ _ => True) (boot κ χ live)

end Xv6.Sched
