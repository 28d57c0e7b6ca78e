import Xv6.Kernel.System

/-! The switches between processes and schedulers. A step ends where a process's lock is acquired or
released and at the two halves of `swtch`. Spinlocks other than a process's and `wait_lock` are not
modelled, so a process may sleep and be interrupted where it holds one. -/

namespace Xv6.Switch

open Transition Kernel Function

variable {n : Nat}

/-- What a process does when it is switched back in: it is in `sleep`, with `wait_lock` or another
lock, in `yield`, in `exit`, or in `forkret`. -/
inductive Why
  | sleep (waitLock : Bool)
  | yield
  | exit
  | start
  deriving DecidableEq, Repr

/-- A function of the kernel with the place that it has got to.  The ones named `..Locked` are in
the section of a process's lock. -/
inductive Frame (n : Nat)
  | wakeup (chan : Option (Chan n)) (i : Nat)
  | wakeupLocked (chan : Option (Chan n)) (i : Fin n)
  | kill (pid : UInt32) (i : Nat)
  | killLocked (pid : UInt32) (i : Fin n)
  /-- `killed`, or `setkilled` -/
  | killed (set : Bool)
  | killedLocked (set : Bool)
  | yield
  | yieldLocked
  | sleep (chan : Chan n) (waitLock : Bool)
  | sleepLocked (chan : Chan n) (waitLock : Bool)
  /-- `sched`, with the state changed, and its return -/
  | sched (why : Why)
  | back (why : Why)
  /-- `acquire(lk)` at the end of `sleep` -/
  | sleepRelock (waitLock : Bool)
  /-- `exit`: before `acquire(&wait_lock)`, in `reparent`, and before and after
  `acquire(&p->lock)` -/
  | exit (status : UInt32)
  | exitReparent (status : UInt32) (i : Nat)
  | exitAcquire (status : UInt32)
  | exitLocked (status : UInt32)
  /-- `fork`: the scan of `allocproc`, `np->parent = p`, and `np->state = RUNNABLE` -/
  | forkScan (i : Nat)
  | forkLocked (i : Fin n)
  | forkParent (np : Fin n)
  | forkRun (np : Fin n)
  | forkRunLocked (np : Fin n)
  | wait (addr : Bool)
  | waitScan (addr havekids : Bool) (i : Nat)
  | waitLocked (addr : Bool) (i : Fin n)
  | waitKilled (addr : Bool)
  | waitKilledLocked (addr : Bool)
  deriving DecidableEq, Repr

/-- Where the scheduler of a processor has got to, or a `wakeup` by an interrupt between two passes
of its loop. -/
inductive Loop (n : Nat)
  | acquire (i : Fin n)
  | locked (i : Fin n)
  /-- about to switch to the process, and back from it -/
  | switch (i : Fin n)
  | back (i : Fin n)
  | wakeup (i : Fin n) (chan : Option (Chan n)) (j : Nat)
  | wakeupLocked (i : Fin n) (chan : Option (Chan n)) (j : Fin n)
  deriving DecidableEq, Repr

/-- What a processor executes: its scheduler, the kernel thread of a process, or the second half of
`swtch` to or from a process. -/
inductive Exec (n : Nat)
  | sched (loop : Loop n)
  | toProc (p : Fin n)
  | proc (p : Fin n)
  | toSched (p : Fin n)
  deriving DecidableEq, Repr

/-- `struct cpu`, with what the processor executes. -/
structure Cpu (n : Nat) where
  proc : Option (Fin n)
  exec : Exec n

/-- The processes with their calls, the locks with their holders, and the processors. `saved`: the
`context` of a process is complete and not loaded since. -/
structure State (n : Nat) where
  table : Table n
  stack : Fin n → List (Frame n)
  saved : Fin n → Bool
  plock : Fin n → Option Nat
  waitLock : Option Nat
  cpu : Nat → Cpu n

namespace State

variable (s : State n)

def proc (p : Fin n) : Proc n := s.table.proc p

def set (p : Fin n) (v : Proc n) : State n := { s with table := s.table.set p v }

def setStack (p : Fin n) (stack : List (Frame n)) : State n :=
  { s with stack := update s.stack p stack }

def setPlock (i : Fin n) (o : Option Nat) : State n :=
  { s with plock := update s.plock i o }

def setSaved (p : Fin n) (b : Bool) : State n := { s with saved := update s.saved p b }

def setExec (c : Nat) (exec : Exec n) : State n :=
  { s with cpu := update s.cpu c { s.cpu c with exec := exec } }

def setProc (c : Nat) (p : Option (Fin n)) : State n :=
  { s with cpu := update s.cpu c { s.cpu c with proc := p } }

def setWaitLock (o : Option Nat) : State n := { s with waitLock := o }

def acquire (c : Nat) (i : Fin n) : Option (State n) :=
  if s.plock i = none then some (s.setPlock i (some c)) else none

def wake (chan : Option (Chan n)) (i : Fin n) : State n :=
  if (s.proc i).state = .sleeping ∧ (s.proc i).chan = chan then
    s.set i { s.proc i with state := .runnable }
  else s

/-- What `allocproc` and `fork` do under the lock of the entry `np`; `ok` says whether they get the
memory. -/
def make (np : Fin n) (ok : Bool) : State n :=
  if ok then ({ s with table := s.table.take np }.setSaved np true).setStack np [.sched .start]
  else { s with table := (s.table.take np).freeproc np }

/-- The next step of the process `p` on the processor `c`, whose innermost call is `f`. -/
def frameStep (c : Nat) (p : Fin n) (ok : Bool) (f : Frame n) (rest : List (Frame n)) :
    Option (State n) :=
  let goto := fun (s : State n) (f : Frame n) => some (s.setStack p (f :: rest))
  let ret := fun s : State n => some (s.setStack p rest)
  match f with
  | .wakeup chan i =>
    if h : i < n then
      if (⟨i, h⟩ : Fin n) = p then goto s (.wakeup chan (i + 1))
      else (s.acquire c ⟨i, h⟩).bind fun s => goto s (.wakeupLocked chan ⟨i, h⟩)
    else ret s
  | .wakeupLocked chan i => goto ((s.wake chan i).setPlock i none) (.wakeup chan (i + 1))
  | .kill pid i =>
    if h : i < n then (s.acquire c ⟨i, h⟩).bind fun s => goto s (.killLocked pid ⟨i, h⟩)
    else ret s
  | .killLocked pid i =>
    if (s.proc i).pid = pid then ret ((s.set i (s.proc i).kill).setPlock i none)
    else goto (s.setPlock i none) (.kill pid (i + 1))
  | .killed set => (s.acquire c p).bind fun s => goto s (.killedLocked set)
  | .killedLocked set =>
    ret ((if set then s.set p { s.proc p with killed := true } else s).setPlock p none)
  | .yield => (s.acquire c p).bind fun s => goto s .yieldLocked
  | .yieldLocked => goto (s.set p { s.proc p with state := .runnable }) (.sched .yield)
  | .sleep chan wl => (s.acquire c p).bind fun s => goto s (.sleepLocked chan wl)
  | .sleepLocked chan wl =>
    let s := if wl then s.setWaitLock none else s
    goto (s.set p { s.proc p with chan := some chan, state := .sleeping }) (.sched (.sleep wl))
  | .sched _ =>
    if s.plock p = some c ∧ (s.proc p).state ≠ .running then
      some ((s.setSaved p true).setExec c (.toSched p))
    else none
  | .back (.sleep wl) =>
    goto ((s.set p { s.proc p with chan := none }).setPlock p none) (.sleepRelock wl)
  | .back .yield | .back .start => ret (s.setPlock p none)
  | .back .exit => none
  | .sleepRelock wl =>
    if wl then (if s.waitLock = none then ret (s.setWaitLock (some c)) else none) else ret s
  | .exit status =>
    if p ≠ s.table.initproc ∧ s.waitLock = none then
      goto (s.setWaitLock (some c)) (.exitReparent status 0)
    else none
  | .exitReparent status i =>
    if h : i < n then
      let pp : Fin n := ⟨i, h⟩
      if (s.proc pp).parent = some p then
        let s := s.set pp { s.proc pp with parent := some s.table.initproc }
        some (s.setStack p
          (.wakeup (some (.proc s.table.initproc)) 0 :: .exitReparent status (i + 1) :: rest))
      else goto s (.exitReparent status (i + 1))
    else
      some (s.setStack p
        (.wakeup ((s.proc p).parent.map .proc) 0 :: .exitAcquire status :: rest))
  | .exitAcquire status => (s.acquire c p).bind fun s => goto s (.exitLocked status)
  | .exitLocked status =>
    goto ((s.set p { s.proc p with xstate := status, state := .zombie }).setWaitLock none)
      (.sched .exit)
  | .forkScan i =>
    if h : i < n then (s.acquire c ⟨i, h⟩).bind fun s => goto s (.forkLocked ⟨i, h⟩)
    else ret s
  | .forkLocked i =>
    if (s.proc i).state = .unused then
      let s := (s.make i ok).setPlock i none
      if ok then goto s (.forkParent i) else ret s
    else goto (s.setPlock i none) (.forkScan (i + 1))
  | .forkParent np =>
    if s.waitLock = none then
      goto (s.set np { s.proc np with parent := some p }) (.forkRun np)
    else none
  | .forkRun np => (s.acquire c np).bind fun s => goto s (.forkRunLocked np)
  | .forkRunLocked np =>
    ret ((s.set np { s.proc np with state := .runnable }).setPlock np none)
  | .wait addr =>
    if s.waitLock = none then goto (s.setWaitLock (some c)) (.waitScan addr false 0) else none
  | .waitScan addr havekids i =>
    if h : i < n then
      if (s.proc ⟨i, h⟩).parent = some p then
        (s.acquire c ⟨i, h⟩).bind fun s => goto s (.waitLocked addr ⟨i, h⟩)
      else goto s (.waitScan addr havekids (i + 1))
    else if havekids then goto s (.waitKilled addr)
    else ret (s.setWaitLock none)
  | .waitLocked addr i =>
    if (s.proc i).state = .zombie then
      let s := if addr ∧ ¬ok then s else { s with table := s.table.freeproc i }
      ret ((s.setPlock i none).setWaitLock none)
    else goto (s.setPlock i none) (.waitScan addr true (i + 1))
  | .waitKilled addr => (s.acquire c p).bind fun s => goto s (.waitKilledLocked addr)
  | .waitKilledLocked addr =>
    let s' := s.setPlock p none
    if (s.proc p).killed then ret (s'.setWaitLock none)
    else some (s'.setStack p (.sleep (.proc p) true :: .waitScan addr false 0 :: rest))

def loopStep [NeZero n] (c : Nat) : Loop n → Option (State n)
  | .acquire i => (s.acquire c i).map fun s => s.setExec c (.sched (.locked i))
  | .locked i =>
    if (s.proc i).state = .runnable then
      some (((s.set i { s.proc i with state := .running }).setProc c (some i)).setExec c
        (.sched (.switch i)))
    else some ((s.setPlock i none).setExec c (.sched (.acquire (i + 1))))
  | .switch i => some (s.setExec c (.toProc i))
  | .back i =>
    some (((s.setProc c none).setPlock i none).setExec c (.sched (.acquire (i + 1))))
  | .wakeup i chan j =>
    if h : j < n then
      (s.acquire c ⟨j, h⟩).map fun s => s.setExec c (.sched (.wakeupLocked i chan ⟨j, h⟩))
    else some (s.setExec c (.sched (.acquire i)))
  | .wakeupLocked i chan j =>
    some (((s.wake chan j).setPlock j none).setExec c (.sched (.wakeup i chan (j + 1))))

def cpuStep [NeZero n] (c : Nat) (ok : Bool) : Option (State n) :=
  match (s.cpu c).exec with
  | .sched loop => s.loopStep c loop
  | .toProc p =>
    match s.stack p with
    | .sched why :: rest =>
      some (((s.setSaved p false).setExec c (.proc p)).setStack p (.back why :: rest))
    | _ => none
  | .proc p =>
    match s.stack p with
    | f :: rest => s.frameStep c p ok f rest
    | [] => none
  | .toSched p => some (s.setExec c (.sched (.back p)))

end State

namespace Frame

def holds (p : Fin n) : Frame n → Option (Fin n)
  | wakeupLocked _ i | killLocked _ i | forkLocked i | forkRunLocked i | waitLocked _ i => some i
  | killedLocked _ | yieldLocked | sleepLocked _ _ | sched _ | back _ | exitLocked _
  | waitKilledLocked _ => some p
  | _ => none

def parked : Frame n → Bool
  | sched _ => true
  | _ => false

def makes : Frame n → Option (Fin n)
  | forkParent np | forkRun np | forkRunLocked np => some np
  | _ => none

end Frame

/-- The system calls and other uses of the functions, from code outside them. -/
inductive Call (n : Nat)
  | wakeup (chan : Option (Chan n))
  | kill (pid : UInt32)
  | killed (set : Bool)
  | sleep (chan : Chan n)
  | exit (status : UInt32)
  | fork
  | wait (addr : Bool)

def Call.frame : Call n → Frame n
  | wakeup chan => .wakeup chan 0
  | kill pid => .kill pid 0
  | killed set => .killed set
  | sleep chan => .sleep chan false
  | exit status => .exit status
  | fork => .forkScan 0
  | wait addr => .wait addr

/-- The steps of the processor `c`; `intr` may call `wakeup`. -/
inductive Label (n : Nat)
  | next (c : Nat) (ok : Bool)
  | call (c : Nat) (call : Call n)
  | intr (c : Nat) (chan : Option (Chan n))
  | timer (c : Nat)

/-- The process `p` holds no lock on the processor `c`, so that interrupts may be on. -/
def State.Interruptible (s : State n) (c : Nat) (p : Fin n) : Prop :=
  (s.stack p).head?.bind (Frame.holds p) = none ∧ s.waitLock ≠ some c

instance (s : State n) (c : Nat) (p : Fin n) : Decidable (s.Interruptible c p) :=
  inferInstanceAs (Decidable (_ ∧ _))

def step [NeZero n] : Label n → State n → Option (State n)
  | .next c ok, s => s.cpuStep c ok
  | .call c call, s =>
    match (s.cpu c).exec with
    | .proc p => if s.stack p = [] then some (s.setStack p [call.frame]) else none
    | _ => none
  | .intr c chan, s =>
    match (s.cpu c).exec with
    | .proc p =>
      if s.Interruptible c p then some (s.setStack p (.wakeup chan 0 :: s.stack p)) else none
    | .sched (.acquire i) => some (s.setExec c (.sched (.wakeup i chan 0)))
    | _ => none
  | .timer c, s =>
    match (s.cpu c).exec with
    | .proc p =>
      if s.Interruptible c p then some (s.setStack p (.yield :: s.stack p)) else none
    | _ => none

def boot (n : Nat) [NeZero n] : State n where
  table := userinit n
  stack := fun p => if p = 0 then [.sched .start] else []
  saved := fun p => p = 0
  plock := fun _ => none
  waitLock := none
  cpu := fun _ => ⟨none, .sched (.acquire 0)⟩

abbrev Reach {n : Nat} [NeZero n] : State n → Prop :=
  Transition.Reach step (fun _ _ => True) (boot n)

end Xv6.Switch
