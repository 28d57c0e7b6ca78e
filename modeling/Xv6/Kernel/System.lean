import Xv6.Kernel.Table

/-! The calls that sleep until they are woken, under any interleaving. A section under a lock that
is held to a `sleep` is split into the passes of its loop, the test of `killed`, and the switch, so
that `kill` may come in between. Memory is not modelled: a pass is given what its copies and
allocations return. -/

namespace Xv6.Kernel

open Transition Function

variable {n : Nat}

abbrev pipeSize : Nat := 512

abbrev inputBufSize : Nat := 128

/-- `struct pipe`, with the bytes accepted and delivered since `pipealloc`, which no step reads. -/
structure Pipe where
  data : Fin pipeSize → UInt8
  nread : UInt32
  nwrite : UInt32
  readopen : Bool
  writeopen : Bool
  accepted : List UInt8
  delivered : List UInt8

namespace Pipe

variable (pi : Pipe)

def slot (i : UInt32) : Fin pipeSize := ⟨i.toNat % pipeSize, Nat.mod_lt _ (by decide)⟩

def put (ch : UInt8) : Pipe :=
  { pi with data := update pi.data (slot pi.nwrite) ch, nwrite := pi.nwrite + 1
            accepted := pi.accepted ++ [ch] }

def get : UInt8 × Pipe := (pi.data (slot pi.nread), { pi with nread := pi.nread + 1 })

def deliver (ch : UInt8) : Pipe := { pi with delivered := pi.delivered ++ [ch] }

/-- The page that `kalloc` returned for a pipe, after `pipealloc`. -/
def alloc (page : Fin pipeSize → UInt8) : Pipe where
  data := page
  nread := 0
  nwrite := 0
  readopen := true
  writeopen := true
  accepted := []
  delivered := []

end Pipe

structure Console where
  buf : Fin inputBufSize → UInt8
  r : UInt32
  w : UInt32
  e : UInt32

namespace Console

variable (cons : Console)

def slot (i : UInt32) : Fin inputBufSize := ⟨i.toNat % inputBufSize, Nat.mod_lt _ (by decide)⟩

/-- `C('P')`, `C('U')` and the other characters that `consoleintr` tells apart. -/
def ctrlC : UInt8 := 3
def ctrlD : UInt8 := 4
def ctrlH : UInt8 := 8
def newline : UInt8 := 10
def carriageReturn : UInt8 := 13
def ctrlP : UInt8 := 16
def ctrlU : UInt8 := 21
def delete : UInt8 := 127

/-- The loop of `C('U')`, which ends at `cons.w` at the latest, `k` characters back. -/
def killLine : Nat → Console → Console
  | 0, cons => cons
  | k + 1, cons =>
    if cons.buf (slot (cons.e - 1)) = newline then cons
    else killLine k { cons with e := cons.e - 1 }

def backspace : Console := if cons.e = cons.w then cons else { cons with e := cons.e - 1 }

/-- The default case: the console after it, and whether it wakes the readers. -/
def store (c : UInt8) : Console × Bool :=
  if c ≠ 0 ∧ cons.e - cons.r < UInt32.ofNat inputBufSize then
    let c := if c = carriageReturn then newline else c
    let cons := { cons with buf := update cons.buf (slot cons.e) c, e := cons.e + 1 }
    if c = newline ∨ c = ctrlD ∨ cons.e - cons.r = UInt32.ofNat inputBufSize then
      ({ cons with w := cons.e }, true)
    else (cons, false)
  else (cons, false)

end Console

/-- The locks that a sleeping call gives up. -/
inductive Lk
  | wait
  | ticks
  | pipe (pi : Nat)
  | cons
  deriving DecidableEq, Repr

/-- A call with the locals that live across its `sleep`: `ticks0` is `none` until it is read, and
`i` while `piperead` is in its first loop. -/
inductive Call
  | wait (addr : Bool)
  | sleep (n : UInt32) (ticks0 : Option UInt32)
  | piperead (pi : Nat) (n : Int) (i : Option Nat)
  | pipewrite (pi : Nat) (n : Int) (i : Nat)
  | consoleread (target n : Int)
  deriving DecidableEq, Repr

namespace Call

def lk : Call → Lk
  | wait _ => .wait
  | sleep _ _ => .ticks
  | piperead pi _ _ => .pipe pi
  | pipewrite pi _ _ => .pipe pi
  | consoleread _ _ => .cons

def chan (p : Fin n) : Call → Chan n
  | wait _ => .proc p
  | sleep _ _ => .ticks
  | piperead pi _ _ => .nread pi
  | pipewrite pi _ _ => .nwrite pi
  | consoleread _ _ => .cons

/-- The pipe that the call is on, and whether it is on the end for writing. -/
def pipeEnd : Call → Option (Nat × Bool)
  | piperead pi _ _ => some (pi, false)
  | pipewrite pi _ _ => some (pi, true)
  | _ => none

end Call

inductive Ret
  | none
  | fail
  | val (v : UInt32)
  deriving DecidableEq, Repr

/-- Where the kernel thread of a process stands. -/
inductive Pc (n : Nat)
  /-- outside the modelled calls -/
  | user (ret : Ret)
  /-- in `fork`, before `np->parent = p` -/
  | forkParent (np : Fin n) (pid : UInt32)
  /-- in `fork`, before `np->state = RUNNABLE` -/
  | forkRun (np : Fin n) (pid : UInt32)
  /-- about to acquire the lock, on entry or after `sleep`'s switch back -/
  | enter (c : Call)
  /-- at the head of the loop, with the lock -/
  | loop (c : Call)
  /-- about to call `sleep`, with the lock and after `killed` returned 0 -/
  | tested (c : Call)
  /-- switched out in `sleep` -/
  | asleep (c : Call)
  /-- switched out in a sleep that does not test `killed` -/
  | blocked (ret : Ret)
  /-- in `thread_join`, before it reads `pp->pid` -/
  | joined (pp : Fin n)
  deriving DecidableEq, Repr

namespace Pc

def isUser : Pc n → Bool
  | user _ => true
  | _ => false

def locked : Pc n → Bool
  | loop _ | tested _ => true
  | _ => false

def call : Pc n → Option Call
  | enter c | loop c | tested c | asleep c => some c
  | _ => none

end Pc

/-- A return of `wait` with a pid: the allocations that the caller and the child came from, and the
pid and status that it gave. -/
structure Waited where
  by_ : Nat
  child : Nat
  pid : UInt32
  status : UInt32
  deriving DecidableEq, Repr

/-- The kernel. The last three fields record, by allocation, who forked a process, what it exited
with, and the returns of `wait`. -/
structure State (n : Nat) where
  table : Table n
  pc : Fin n → Pc n
  holder : Lk → Option (Fin n)
  ticks : UInt32
  pipe : Nat → Pipe
  cons : Console
  forker : Nat → Option Nat
  exited : Nat → Option (UInt32 × UInt32)
  waits : List Waited

/-- The results of a pass's copies: the byte that `copyin` read, and whether `copyout` succeeds. -/
structure Copies where
  byte : Option UInt8
  copyout : Bool

/-- How a pass through a loop ends. -/
inductive Next
  | again (c : Call)
  | sleep (c : Call)
  | ret (r : Ret)

namespace State

variable (s : State n)

def proc (p : Fin n) : Proc n := s.table.proc p

def setPc (p : Fin n) (pc : Pc n) : State n := { s with pc := update s.pc p pc }

@[simp] theorem setPc_self (p : Fin n) (pc : Pc n) : (s.setPc p pc).pc p = pc :=
  update_self ..

theorem setPc_of_ne (pc : Pc n) (h : q ≠ p) : (s.setPc p pc).pc q = s.pc q :=
  update_of_ne h ..

@[simp] theorem setPc_proc (p q : Fin n) (pc : Pc n) : (s.setPc p pc).proc q = s.proc q := rfl
@[simp] theorem setPc_holder (p : Fin n) (pc : Pc n) : (s.setPc p pc).holder = s.holder := rfl
@[simp] theorem setPc_table (p : Fin n) (pc : Pc n) : (s.setPc p pc).table = s.table := rfl

def setHolder (lk : Lk) (p : Option (Fin n)) : State n :=
  { s with holder := update s.holder lk p }

@[simp] theorem setHolder_table (lk : Lk) (o) : (s.setHolder lk o).table = s.table := rfl
@[simp] theorem setHolder_pc (lk : Lk) (o) : (s.setHolder lk o).pc = s.pc := rfl
@[simp] theorem setHolder_proc (lk : Lk) (o) (q : Fin n) : (s.setHolder lk o).proc q = s.proc q :=
  rfl

theorem setHolder_holder (lk lk' : Lk) (o : Option (Fin n)) :
    (s.setHolder lk o).holder lk' = if lk' = lk then o else s.holder lk' :=
  update_apply ..

def setState (p : Fin n) (st : ProcState) : State n :=
  { s with table := s.table.set p { s.proc p with state := st } }

def setParent (np p : Fin n) : State n :=
  { s with table := s.table.set np { s.proc np with parent := some p } }

def setPipe (i : Nat) (pi : Pipe) : State n := { s with pipe := update s.pipe i pi }

def wakeup (me : Option (Fin n)) (chan : Chan n) : State n :=
  { s with table := s.table.wakeup me (some chan) }

def killed (p : Fin n) : Bool := (s.proc p).killed

/-- `freeproc(pp)` and the return of its pid by `wait` in `p`. -/
def reap (p pp : Fin n) : State n :=
  { s with
    table := s.table.freeproc pp
    waits := s.waits ++
      [⟨s.table.birth p, s.table.birth pp, (s.proc pp).pid, (s.proc pp).xstate⟩] }

def waitPass (p : Fin n) (addr : Bool) (io : Copies) : State n × Next :=
  match s.table.findZombie p with
  | some pp =>
    if addr ∧ ¬io.copyout then (s, .ret .fail)
    else (s.reap p pp, .ret (.val (s.proc pp).pid))
  | none =>
    if ¬s.table.havekids p ∨ s.killed p then (s, .ret .fail) else (s, .sleep (.wait addr))

/-- The assignment of `ticks0`, then one pass of `sys_sleep`'s loop. -/
def sleepPass (p : Fin n) (k : UInt32) (ticks0 : Option UInt32) : State n × Next :=
  match ticks0 with
  | none => (s, .again (.sleep k (some s.ticks)))
  | some t0 =>
    if s.ticks - t0 < k then
      if s.killed p then (s, .ret .fail) else (s, .sleep (.sleep k (some t0)))
    else (s, .ret (.val 0))

def pipewritePass (p : Fin n) (pi : Nat) (k : Int) (i : Nat) (io : Copies) : State n × Next :=
  let done := (s.wakeup (some p) (.nread pi), Next.ret (.val (UInt32.ofNat i)))
  if (i : Int) < k then
    if ¬(s.pipe pi).readopen ∨ s.killed p then (s, .ret .fail)
    else if (s.pipe pi).nwrite = (s.pipe pi).nread + UInt32.ofNat pipeSize then
      (s.wakeup (some p) (.nread pi), .sleep (.pipewrite pi k i))
    else
      match io.byte with
      | none => done
      | some ch => (s.setPipe pi ((s.pipe pi).put ch), .again (.pipewrite pi k (i + 1)))
  else done

def pipereadWait (p : Fin n) (pi : Nat) (k : Int) : State n × Next :=
  if (s.pipe pi).nread = (s.pipe pi).nwrite ∧ (s.pipe pi).writeopen then
    if s.killed p then (s, .ret .fail) else (s, .sleep (.piperead pi k none))
  else (s, .again (.piperead pi k (some 0)))

/-- One pass of `piperead`'s second loop, which copies, or what follows it. -/
def pipereadCopy (p : Fin n) (pi : Nat) (k : Int) (i : Nat) (io : Copies) : State n × Next :=
  let done := fun s : State n => (s.wakeup (some p) (.nwrite pi), Next.ret (.val (UInt32.ofNat i)))
  if (i : Int) < k ∧ (s.pipe pi).nread ≠ (s.pipe pi).nwrite then
    let (ch, q) := (s.pipe pi).get
    if io.copyout then (s.setPipe pi (q.deliver ch), .again (.piperead pi k (some (i + 1))))
    else done (s.setPipe pi q)
  else done s

def consolereadPass (p : Fin n) (target k : Int) (io : Copies) : State n × Next :=
  let ret := fun k : Int => Next.ret (.val (UInt32.ofInt (target - k)))
  if 0 < k then
    if s.cons.r = s.cons.w then
      if s.killed p then (s, .ret .fail) else (s, .sleep (.consoleread target k))
    else
      let c := s.cons.buf (Console.slot s.cons.r)
      let read := { s with cons := { s.cons with r := s.cons.r + 1 } }
      if c = Console.ctrlD then (if k < target then s else read, ret k)
      else if ¬io.copyout then (read, ret k)
      else if c = Console.newline then (read, ret (k - 1))
      else (read, .again (.consoleread target (k - 1)))
  else (s, ret k)

def pass (p : Fin n) (io : Copies) : Call → State n × Next
  | .wait addr => s.waitPass p addr io
  | .sleep k ticks0 => s.sleepPass p k ticks0
  | .piperead pi k none => s.pipereadWait p pi k
  | .piperead pi k (some i) => s.pipereadCopy p pi k i io
  | .pipewrite pi k i => s.pipewritePass p pi k i io
  | .consoleread target k => s.consolereadPass p target k io

/-- The process `p` after a pass of the call `c`: it goes on, is about to sleep, or has released the
lock and returned. -/
def goOn (p : Fin n) (c : Call) : Next → State n
  | .again c' => s.setPc p (.loop c')
  | .sleep c' => s.setPc p (.tested c')
  | .ret r => (s.setPc p (.user r)).setHolder c.lk none

/-- `consoleintr(c)`, in an interrupt of the process `cur` or of an idle cpu. -/
def consoleintr (c : UInt8) (cur : Option (Fin n)) : State n :=
  if c = Console.ctrlP then s
  else if c = Console.ctrlU then
    { s with cons := s.cons.killLine (s.cons.e - s.cons.w).toNat }
  else if c = Console.ctrlH ∨ c = Console.delete then { s with cons := s.cons.backspace }
  else if c = Console.ctrlC then
    match cur with
    | some p => { s with table := s.table.setkilled p }
    | none => s
  else
    let (cons, wake) := s.cons.store c
    let s := { s with cons := cons }
    if wake then s.wakeup cur .cons else s

end State

/-- The steps of the kernel.  The process that takes a step comes first. -/
inductive Label (n : Nat)
  /-- `fork` up to `release(&np->lock)`; whether `allocproc` gets its pages and `uvmcopy` its -/
  | fork (p : Fin n) (mem copy : Bool)
  | forkParent (p : Fin n)
  | forkRun (p : Fin n)
  | exit (p : Fin n) (status : UInt32)
  | kill (p : Fin n) (pid : UInt32)
  /-- a fault of the process in user space -/
  | setkilled (p : Fin n)
  /-- the start of a call -/
  | call (p : Fin n) (c : Call)
  | acquire (p : Fin n)
  | pass (p : Fin n) (io : Copies)
  /-- `sleep` up to the switch to the scheduler -/
  | sleep (p : Fin n)
  /-- `sleep` on a channel that is not one of the calls' -/
  | block (p : Fin n) (a : Nat)
  /-- `wakeup` of such a channel -/
  | wake (a : Nat)
  /-- the scheduler's choice of a process, and `sleep`'s last lines if it was switched out there -/
  | pick (p : Fin n)
  | yield (p : Fin n)
  | clockintr
  | consoleintr (c : UInt8) (cur : Option (Fin n))
  | pipealloc (pi : Nat) (page : Fin pipeSize → UInt8)
  | pipeclose (pi : Nat) (writable : Bool)
  | threadCreate (p : Fin n) (args mem : Bool)
  | threadJoin (p : Fin n) (retval : Bool) (io : Copies)
  | joined (p : Fin n)

namespace State

variable (s : State n)

/-- The process `p` runs outside the modelled calls. -/
def Free (p : Fin n) : Prop := (s.proc p).state = .running ∧ (s.pc p).isUser

/-- The process `p` runs with interrupts on. -/
def Interruptible (p : Fin n) : Prop := (s.proc p).state = .running ∧ ¬(s.pc p).locked

def Uses (pi : Nat) (writable : Bool) (p : Fin n) : Prop :=
  (s.pc p).call.bind Call.pipeEnd = some (pi, writable)

instance (p : Fin n) : Decidable (s.Free p) := inferInstanceAs (Decidable (_ ∧ _))

instance (p : Fin n) : Decidable (s.Interruptible p) := inferInstanceAs (Decidable (_ ∧ _))

instance (pi : Nat) (w : Bool) (p : Fin n) : Decidable (s.Uses pi w p) :=
  inferInstanceAs (Decidable (_ = _))

/-- The end of a pipe that a call needs is open, and its locals are those of its first line. -/
def Starts : Call → Prop
  | .wait _ => True
  | .sleep _ ticks0 => ticks0 = none
  | .piperead pi _ i => (s.pipe pi).readopen ∧ i = none
  | .pipewrite pi _ i => (s.pipe pi).writeopen ∧ i = 0
  | .consoleread target k => target = k

instance : (c : Call) → Decidable (s.Starts c)
  | .wait _ => .isTrue trivial
  | .sleep _ _ => inferInstanceAs (Decidable (_ = _))
  | .piperead _ _ _ => inferInstanceAs (Decidable (_ ∧ _))
  | .pipewrite _ _ _ => inferInstanceAs (Decidable (_ ∧ _))
  | .consoleread _ _ => inferInstanceAs (Decidable (_ = _))

def fork (p : Fin n) (mem copy : Bool) : State n :=
  match s.table.allocproc mem with
  | (none, t) => { s with table := t }.setPc p (.user .fail)
  | (some np, t) =>
    if copy then
      ({ s with table := t, forker := update s.forker (t.birth np) (some (t.birth p)) }.setPc
        np (.user (.val 0))).setPc p (.forkParent np (t.proc np).pid)
    else { s with table := t.freeproc np }.setPc p (.user .fail)

def threadCreate (p : Fin n) (args mem : Bool) : State n :=
  if args then
    match s.table.allocthread p mem with
    | (none, t) => { s with table := t }.setPc p (.user .fail)
    | (some np, t) =>
      ({ s with table := t.set np { t.proc np with state := .runnable } }.setPc
        np (.user .none)).setPc p (.user (.val (t.proc np).pid))
  else s.setPc p (.user .fail)

def threadJoin (p : Fin n) (retval : Bool) (io : Copies) : State n :=
  match s.table.findThread p with
  | none => s.setPc p (.user .fail)
  | some pp =>
    if retval ∧ ¬io.copyout then s.setPc p (.user .fail)
    else { s with table := s.table.freeproc pp }.setPc p (.joined pp)

def kill (p : Fin n) (pid : UInt32) : State n :=
  { s with table := (s.table.kill pid).2 }.setPc p
    (.user (if (s.table.kill pid).1 then .val 0 else .fail))

def exit (p : Fin n) (status : UInt32) : State n :=
  { s with
    table := s.table.exit p status
    exited := update s.exited (s.table.birth p) (some ((s.proc p).pid, status)) }

def sleep (p : Fin n) (chan : Chan n) : State n :=
  { s with table := s.table.set p { s.proc p with chan := some chan, state := .sleeping } }

/-- The scheduler runs `p`, which leaves `sleep` if it was switched out there. -/
def pick (p : Fin n) : State n :=
  let v := { s.proc p with state := .running }
  match s.pc p with
  | .asleep c => { s with table := s.table.set p { v with chan := none } }.setPc p (.enter c)
  | .blocked r => { s with table := s.table.set p { v with chan := none } }.setPc p (.user r)
  | _ => { s with table := s.table.set p v }

def pipeclose (i : Nat) (writable : Bool) : State n :=
  if writable then
    (s.setPipe i { s.pipe i with writeopen := false }).wakeup none (.nread i)
  else (s.setPipe i { s.pipe i with readopen := false }).wakeup none (.nwrite i)

end State

/-- One step.  A lock is taken only when it is free, and a process acts only when it runs; the
number of processors is not bounded.  `exit` by `initproc` panics. -/
def step : Label n → State n → Option (State n)
  | .fork p mem copy, s => if s.Free p then some (s.fork p mem copy) else none
  | .forkParent p, s =>
    match s.pc p with
    | .forkParent np pid =>
      if (s.proc p).state = .running ∧ s.holder .wait = none then
        some ((s.setParent np p).setPc p (.forkRun np pid))
      else none
    | _ => none
  | .forkRun p, s =>
    match s.pc p with
    | .forkRun np pid =>
      if (s.proc p).state = .running then
        some ((s.setState np .runnable).setPc p (.user (.val pid)))
      else none
    | _ => none
  | .exit p status, s =>
    if s.Free p ∧ p ≠ s.table.initproc ∧ s.holder .wait = none then some (s.exit p status) else none
  | .kill p pid, s =>
    if s.Free p then some (s.kill p pid) else none
  | .setkilled p, s =>
    if s.Free p then some { s with table := s.table.setkilled p } else none
  | .call p c, s => if s.Free p ∧ s.Starts c then some (s.setPc p (.enter c)) else none
  | .acquire p, s =>
    match s.pc p with
    | .enter c =>
      if (s.proc p).state = .running ∧ s.holder c.lk = none then
        some ((s.setPc p (.loop c)).setHolder c.lk (some p))
      else none
    | _ => none
  | .pass p io, s =>
    match s.pc p with
    | .loop c =>
      if (s.proc p).state = .running then
        some ((s.pass p io c).1.goOn p c (s.pass p io c).2)
      else none
    | _ => none
  | .sleep p, s =>
    match s.pc p with
    | .tested c =>
      if (s.proc p).state = .running then
        some (((s.sleep p (c.chan p)).setPc p (.asleep c)).setHolder c.lk none)
      else none
    | _ => none
  | .block p a, s =>
    match s.pc p with
    | .user r =>
      if (s.proc p).state = .running then some ((s.sleep p (.other a)).setPc p (.blocked r))
      else none
    | _ => none
  | .wake a, s => some (s.wakeup none (.other a))
  | .pick p, s => if (s.proc p).state = .runnable then some (s.pick p) else none
  | .yield p, s =>
    if s.Interruptible p then some (s.setState p .runnable) else none
  | .clockintr, s =>
    if s.holder .ticks = none then some ({ s with ticks := s.ticks + 1 }.wakeup none .ticks)
    else none
  | .consoleintr c cur, s =>
    if s.holder .cons = none ∧ ∀ p ∈ cur, s.Interruptible p then some (s.consoleintr c cur)
    else none
  | .pipealloc i page, s =>
    if ¬(s.pipe i).readopen ∧ ¬(s.pipe i).writeopen ∧ ∀ p w, ¬s.Uses i w p then
      some (s.setPipe i (.alloc page))
    else none
  | .pipeclose i writable, s =>
    if (if writable then (s.pipe i).writeopen else (s.pipe i).readopen) ∧
        s.holder (.pipe i) = none ∧ ∀ p, ¬s.Uses i writable p then
      some (s.pipeclose i writable)
    else none
  | .threadCreate p args mem, s => if s.Free p then some (s.threadCreate p args mem) else none
  | .threadJoin p retval io, s => if s.Free p then some (s.threadJoin p retval io) else none
  | .joined p, s =>
    match s.pc p with
    | .joined pp =>
      if (s.proc p).state = .running then some (s.setPc p (.user (.val (s.proc pp).pid))) else none
    | _ => none

/-- The steps as a relation, one constructor for each way that `step` succeeds. -/
inductive Step (s : State n) : Label n → State n → Prop
  | fork {p mem copy} (free : s.Free p) : Step s (.fork p mem copy) (s.fork p mem copy)
  | forkParent {p np pid} (at_ : s.pc p = .forkParent np pid) (run : (s.proc p).state = .running)
      (lock : s.holder .wait = none) :
      Step s (.forkParent p) ((s.setParent np p).setPc p (.forkRun np pid))
  | forkRun {p np pid} (at_ : s.pc p = .forkRun np pid) (run : (s.proc p).state = .running) :
      Step s (.forkRun p) ((s.setState np .runnable).setPc p (.user (.val pid)))
  | exit {p status} (free : s.Free p) (init : p ≠ s.table.initproc)
      (lock : s.holder .wait = none) : Step s (.exit p status) (s.exit p status)
  | kill {p pid} (free : s.Free p) : Step s (.kill p pid) (s.kill p pid)
  | setkilled {p} (free : s.Free p) :
      Step s (.setkilled p) { s with table := s.table.setkilled p }
  | call {p c} (free : s.Free p) (starts : s.Starts c) :
      Step s (.call p c) (s.setPc p (.enter c))
  | acquire {p c} (at_ : s.pc p = .enter c) (run : (s.proc p).state = .running)
      (lock : s.holder c.lk = none) :
      Step s (.acquire p) ((s.setPc p (.loop c)).setHolder c.lk (some p))
  | pass {p io c s' next} (at_ : s.pc p = .loop c) (run : (s.proc p).state = .running)
      (eq : s.pass p io c = (s', next)) : Step s (.pass p io) (s'.goOn p c next)
  | sleep {p c} (at_ : s.pc p = .tested c) (run : (s.proc p).state = .running) :
      Step s (.sleep p) (((s.sleep p (c.chan p)).setPc p (.asleep c)).setHolder c.lk none)
  | block {p a r} (at_ : s.pc p = .user r) (run : (s.proc p).state = .running) :
      Step s (.block p a) ((s.sleep p (.other a)).setPc p (.blocked r))
  | wake {a} : Step s (.wake a) (s.wakeup none (.other a))
  | pick {p} (run : (s.proc p).state = .runnable) : Step s (.pick p) (s.pick p)
  | yield {p} (run : s.Interruptible p) : Step s (.yield p) (s.setState p .runnable)
  | clockintr (lock : s.holder .ticks = none) :
      Step s .clockintr ({ s with ticks := s.ticks + 1 }.wakeup none .ticks)
  | consoleintr {c cur} (lock : s.holder .cons = none) (run : ∀ p ∈ cur, s.Interruptible p) :
      Step s (.consoleintr c cur) (s.consoleintr c cur)
  | pipealloc {i page} (read : ¬(s.pipe i).readopen) (write : ¬(s.pipe i).writeopen)
      (idle : ∀ p w, ¬s.Uses i w p) : Step s (.pipealloc i page) (s.setPipe i (.alloc page))
  | pipeclose {i w} (lock : s.holder (.pipe i) = none) (idle : ∀ p, ¬s.Uses i w p) :
      Step s (.pipeclose i w) (s.pipeclose i w)
  | threadCreate {p args mem} (free : s.Free p) :
      Step s (.threadCreate p args mem) (s.threadCreate p args mem)
  | threadJoin {p retval io} (free : s.Free p) :
      Step s (.threadJoin p retval io) (s.threadJoin p retval io)
  | joined {p pp} (at_ : s.pc p = .joined pp) (run : (s.proc p).state = .running) :
      Step s (.joined p) (s.setPc p (.user (.val (s.proc pp).pid)))

theorem step_sound {l : Label n} (h : step l s = some s') : Step s l s' := by
  cases l with
  | forkParent p | forkRun p | acquire p | pass p io | sleep p | block p a | joined p =>
    simp only [step] at h
    split at h
    next at_ =>
      obtain ⟨hg, rfl⟩ := guarded h
      first
      | exact .forkParent at_ hg.1 hg.2
      | exact .forkRun at_ hg
      | exact .acquire at_ hg.1 hg.2
      | exact .pass at_ hg rfl
      | exact .sleep at_ hg
      | exact .block at_ hg
      | exact .joined at_ hg
    next => cases h
  | wake a => cases h; exact .wake
  | _ =>
    obtain ⟨hg, rfl⟩ := guarded h
    first
    | exact .fork hg
    | exact .exit hg.1 hg.2.1 hg.2.2
    | exact .kill hg
    | exact .setkilled hg
    | exact .call hg.1 hg.2
    | exact .pick hg
    | exact .yield hg
    | exact .clockintr hg
    | exact .consoleintr hg.1 hg.2
    | exact .pipealloc hg.1 hg.2.1 hg.2.2
    | exact .pipeclose hg.2.1 hg.2.2
    | exact .threadCreate hg
    | exact .threadJoin hg

def userinit (n : Nat) [NeZero n] : Table n :=
  match (Table.zero n).allocproc true with
  | (none, t) => t
  | (some p, t) => { t.set p { t.proc p with state := .runnable } with initproc := p }

theorem userinit_eq (n : Nat) [NeZero n] : userinit n =
    ((Table.zero n).take 0).set 0 { ((Table.zero n).take 0).proc 0 with state := .runnable } := by
  have first : (Table.zero n).findUnused = some 0 := by
    obtain ⟨k, rfl⟩ := Nat.exists_eq_succ_of_ne_zero (NeZero.ne n)
    simp [Table.findUnused, Table.zero, List.finRange_succ]
  rw [userinit, Table.allocproc, first]
  rfl

def boot (n : Nat) [NeZero n] : State n where
  table := userinit n
  pc := fun _ => .user .none
  holder := fun _ => none
  ticks := 0
  pipe := fun _ => ⟨fun _ => 0, 0, 0, false, false, [], []⟩
  cons := ⟨fun _ => 0, 0, 0, 0⟩
  forker := fun _ => none
  exited := fun _ => none
  waits := []

abbrev Reach {n : Nat} [NeZero n] (ok : State n → Label n → Prop) : State n → Prop :=
  Transition.Reach step ok (boot n)

end Xv6.Kernel
