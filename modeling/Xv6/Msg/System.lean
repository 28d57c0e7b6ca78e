import Xv6.Lib.Run

/-! The message queues of `kernel/msg.c`, under any interleaving. A call is split where it takes the
lock of its queue. Memory is not modelled: a call is given what its user copies return. -/

namespace Xv6.Msg

open Transition Function

variable {n : Nat}

abbrev msgMaxQueues : Nat := 16

instance : NeZero msgMaxQueues := ⟨by decide⟩

abbrev msgMaxSize : Nat := 1024

abbrev ipcNowait : UInt32 := 0x800

structure MsgBuf where
  mtype : Int64
  mtext : Fin msgMaxSize → UInt8

/-- `struct msg_queue`. The last six fields record the run: the messages accepted and returned since
`msgget`, the number accepted since the last removal, the `msg_qbytes` of the last `IPC_SET`, the
removals, and whether a call took effect after a removal that came after its start. -/
structure Queue where
  inUse : Bool
  msgCount : Nat
  firstMsg : Nat
  lastMsg : Nat
  queueSize : Int
  accepted : List MsgBuf
  delivered : List MsgBuf
  sends : Nat
  set : Option UInt32
  removals : Nat
  late : Bool

/-- The commands of `msgctl`, with the `msg_qbytes` that `copyin` read. -/
inductive Cmd
  | stat
  | set (qbytes : UInt32)
  | rmid
  | other
  deriving DecidableEq, Repr

namespace Queue

variable (v : Queue)

/-- `msgget` sets `in_use` only. -/
def get : Queue := { v with inUse := true, accepted := [], delivered := [] }

/-- `msgsnd` has stored `msg`. -/
def push (msg : MsgBuf) (issued : Nat) : Queue :=
  { v with
    lastMsg := (v.lastMsg + 1) % msgMaxSize
    msgCount := v.msgCount + 1
    accepted := v.accepted ++ [msg]
    sends := v.sends + 1
    late := v.late || issued ≠ v.removals }

/-- `msgrcv` has copied `msg` out. -/
def pop (msg : MsgBuf) (issued : Nat) : Queue :=
  { v with
    firstMsg := (v.firstMsg + 1) % 100
    msgCount := v.msgCount - 1
    delivered := v.delivered ++ [msg]
    late := v.late || issued ≠ v.removals }

/-- `msgctl` on a queue in use. -/
def control : Cmd → Queue
  | .set qbytes => { v with queueSize := qbytes.toInt32.toInt, set := some qbytes }
  | .rmid =>
    { v with inUse := false, msgCount := 0, firstMsg := 0, lastMsg := 0
             accepted := [], delivered := [], sends := 0, removals := v.removals + 1 }
  | _ => v

end Queue

/-- What a call returned; a failing call returns -1.  `IPC_STAT` also gives the two fields of
`struct msqid_ds` that are not 0. -/
inductive Ret
  | none
  | fail
  | val (v : Int)
  | stat (msgQnum msgQbytes : UInt32)
  deriving DecidableEq, Repr

/-- Outside the calls, before the lock in `msgsnd` or `msgrcv`, or asleep in `msgsnd`. `issued` is
the number of removals when the call tested the queue. -/
inductive Pc
  | user (ret : Ret)
  | sending (q : Fin msgMaxQueues) (msg : MsgBuf) (nowait : Bool) (issued : Nat)
  | asleep (q : Fin msgMaxQueues) (msg : MsgBuf) (issued : Nat)
  | receiving (q : Fin msgMaxQueues) (msgsz : Int) (msgtyp : Int64) (issued : Nat)

namespace Pc

def sendsTo (q : Fin msgMaxQueues) : Pc → Bool
  | sending q' _ _ _ | asleep q' _ _ => q' = q
  | _ => false

/-- The queue that the process is in a call on, and its number of removals when the call began. -/
def call : Pc → Option (Fin msgMaxQueues × Nat)
  | sending q _ _ issued | asleep q _ issued | receiving q _ _ issued => some (q, issued)
  | user _ => none

def uses (q : Fin msgMaxQueues) (pc : Pc) : Bool := pc.call.any fun c => c.1 = q

def sleepsOn (q : Fin msgMaxQueues) : Pc → Bool
  | asleep q' _ _ => q' = q
  | _ => false

end Pc

/-- `msgtable`, and where the processes stand.  `messages[i]` for `i ≥ MSG_MAX_QUEUES * 100` is what
lies behind the array in memory. -/
structure State (n : Nat) where
  queue : Fin msgMaxQueues → Queue
  messages : Nat → MsgBuf
  pc : Fin n → Pc

/-- The check of `msqid` in the calls. -/
def queueOf (msqid : Int) : Option (Fin msgMaxQueues) :=
  if h : 0 ≤ msqid ∧ msqid < msgMaxQueues then some ⟨msqid.toNat, by omega⟩ else none

/-- `msgtyp` after `argint`, which sets its low half only. -/
def msgtypOf (low high : UInt32) : Int64 :=
  (low.toUInt64 ||| (high.toUInt64 <<< 32)).toInt64

namespace State

variable (s : State n)

def setQueue (q : Fin msgMaxQueues) (v : Queue) : State n :=
  { s with queue := update s.queue q v }

def setPc (p : Fin n) (pc : Pc) : State n := { s with pc := update s.pc p pc }

/-- The call of process `p` returns. -/
def ret (p : Fin n) (r : Ret) : State n := s.setPc p (.user r)

/-- `wakeup(&msgtable.queues[q])`: the sleepers are about to take the lock again. -/
def wakeup (q : Fin msgMaxQueues) : State n :=
  { s with pc := fun p =>
      match s.pc p with
      | .asleep q' msg issued => if q' = q then .sending q' msg false issued else s.pc p
      | pc => pc }

/-- The loop of `sys_msgget`. -/
def findUnused : Option (Fin msgMaxQueues) :=
  (List.finRange msgMaxQueues).find? fun q => ¬(s.queue q).inUse

/-- `sys_msgget`; key and flags are not used. -/
def msgget (p : Fin n) : State n :=
  match s.findUnused with
  | none => s.ret p .fail
  | some q =>
    (s.setQueue q (s.queue q).get).ret p (.val q)

/-- `msgsnd` before it takes the lock; `msg` is what `copyin` read. -/
def msgsnd (p : Fin n) (msqid : Int) (msg : Option MsgBuf) (msgsz : Int) (flags : UInt32) :
    State n :=
  match queueOf msqid with
  | none => s.ret p .fail
  | some q =>
    if ¬(s.queue q).inUse then s.ret p .fail
    else
      match msg with
      | none => s.ret p .fail
      | some msg =>
        if msgsz < 0 ∨ msgMaxSize < msgsz then s.ret p .fail
        else s.setPc p (.sending q msg (flags &&& ipcNowait ≠ 0) (s.queue q).removals)

/-- `msg_count >= queue_size`. -/
def Full (q : Fin msgMaxQueues) : Prop := (s.queue q).queueSize ≤ (s.queue q).msgCount

instance (q : Fin msgMaxQueues) : Decidable (s.Full q) := inferInstanceAs (Decidable (_ ≤ _))

/-- The message goes to `messages[msg_index]`. -/
def accept (q : Fin msgMaxQueues) (msg : MsgBuf) (issued : Nat) : State n :=
  { s.setQueue q ((s.queue q).push msg issued) with
    messages := update s.messages (q * msgMaxSize + (s.queue q).lastMsg) msg }

/-- `sys_msgsnd` under the lock of the queue. -/
def send (p : Fin n) (q : Fin msgMaxQueues) (msg : MsgBuf) (nowait : Bool) (issued : Nat) :
    State n :=
  if s.Full q then
    if nowait then s.ret p .fail else s.setPc p (.asleep q msg issued)
  else ((s.accept q msg issued).wakeup q).ret p (.val 0)

/-- `sys_msgrcv` before it takes the lock. -/
def msgrcv (p : Fin n) (msqid msgsz : Int) (msgtyp : Int64) : State n :=
  match queueOf msqid with
  | none => s.ret p .fail
  | some q =>
    if ¬(s.queue q).inUse then s.ret p .fail
    else if msgsz < 0 ∨ msgMaxSize < msgsz then s.ret p .fail
    else s.setPc p (.receiving q msgsz msgtyp (s.queue q).removals)

/-- The message that `sys_msgrcv` looks at. -/
def front (q : Fin msgMaxQueues) : MsgBuf := s.messages (q * 100 + (s.queue q).firstMsg)

def take (q : Fin msgMaxQueues) (issued : Nat) : State n :=
  s.setQueue q ((s.queue q).pop (s.front q) issued)

/-- `sys_msgrcv` under the lock; an empty queue is a failure, with or without `IPC_NOWAIT`. -/
def receive (p : Fin n) (q : Fin msgMaxQueues) (msgsz : Int) (msgtyp : Int64) (issued : Nat)
    (copyout : Bool) : State n :=
  if (s.queue q).msgCount = 0 then s.ret p .fail
  else if 0 < msgtyp ∧ (s.front q).mtype ≠ msgtyp then s.ret p .fail
  else if ¬copyout then s.ret p .fail
  else (s.take q issued).ret p (.val msgsz)

def answer (v : Queue) : Cmd → Ret
  | .stat => .stat (UInt32.ofNat v.msgCount) (UInt32.ofInt v.queueSize)
  | _ => .val 0

/-- `msgctl`; `copy` says whether its user copy succeeds. -/
def msgctl (p : Fin n) (msqid : Int) (cmd : Cmd) (copy : Bool) : State n :=
  match queueOf msqid with
  | none => s.ret p .fail
  | some q =>
    if cmd = .other ∨ ¬(s.queue q).inUse ∨ cmd ≠ .rmid ∧ ¬copy then s.ret p .fail
    else (s.setQueue q ((s.queue q).control cmd)).ret p (answer (s.queue q) cmd)

end State

/-- `enter` is what a call does under the lock, with the result of its user copy; `kill` makes a
sleeper test again. -/
inductive Label (n : Nat)
  | msgget (p : Fin n)
  | msgsnd (p : Fin n) (msqid : Int) (msg : Option MsgBuf) (msgsz : Int) (flags : UInt32)
  | msgrcv (p : Fin n) (msqid msgsz : Int) (low high : UInt32)
  | enter (p : Fin n) (copyout : Bool)
  | msgctl (p : Fin n) (msqid : Int) (cmd : Cmd) (copy : Bool)
  | kill (p : Fin n)

def State.Free (s : State n) (p : Fin n) : Prop := ∃ r, s.pc p = .user r

instance (s : State n) (p : Fin n) : Decidable (s.Free p) :=
  match h : s.pc p with
  | .user r => .isTrue ⟨r, h⟩
  | .sending .. | .asleep .. | .receiving .. => .isFalse fun ⟨r, h'⟩ => by rw [h] at h'; cases h'

def step : Label n → State n → Option (State n)
  | .msgget p, s => if s.Free p then some (s.msgget p) else none
  | .msgsnd p msqid msg msgsz flags, s =>
    if s.Free p then some (s.msgsnd p msqid msg msgsz flags) else none
  | .msgrcv p msqid msgsz low high, s =>
    if s.Free p then some (s.msgrcv p msqid msgsz (msgtypOf low high)) else none
  | .enter p copyout, s =>
    match s.pc p with
    | .sending q msg nowait issued => some (s.send p q msg nowait issued)
    | .receiving q msgsz msgtyp issued => some (s.receive p q msgsz msgtyp issued copyout)
    | _ => none
  | .msgctl p msqid cmd copy, s => if s.Free p then some (s.msgctl p msqid cmd copy) else none
  | .kill p, s =>
    match s.pc p with
    | .asleep q msg issued => some (s.setPc p (.sending q msg false issued))
    | _ => some s

/-- The steps as a relation: a call starts, returns without effect, sleeps, is woken, or takes
effect on its queue. -/
inductive Step (s : State n) : Label n → State n → Prop
  | ret {l p r} (out : ∀ q, ¬(s.pc p).sleepsOn q) : Step s l (s.ret p r)
  | get {p q} (free : s.Free p) (found : s.findUnused = some q) :
      Step s (.msgget p) ((s.setQueue q (s.queue q).get).ret p (.val q))
  | sends {p q msqid m msg msgsz flags nowait} (free : s.Free p) (id : queueOf msqid = some q)
      (used : (s.queue q).inUse) : Step s (.msgsnd p msqid m msgsz flags)
        (s.setPc p (.sending q msg nowait (s.queue q).removals))
  | receives {p q msqid msgsz msgtyp low high} (free : s.Free p) (id : queueOf msqid = some q)
      (used : (s.queue q).inUse) : Step s (.msgrcv p msqid msgsz low high)
        (s.setPc p (.receiving q msgsz msgtyp (s.queue q).removals))
  | sleeps {c p q msg nowait issued} (at_ : s.pc p = .sending q msg nowait issued)
      (full : s.Full q) : Step s (.enter p c) (s.setPc p (.asleep q msg issued))
  | accepts {c p q msg nowait issued} (at_ : s.pc p = .sending q msg nowait issued)
      (room : ¬s.Full q) :
      Step s (.enter p c) (((s.accept q msg issued).wakeup q).ret p (.val 0))
  | takes {c p q msgsz msgtyp issued} (at_ : s.pc p = .receiving q msgsz msgtyp issued)
      (some : (s.queue q).msgCount ≠ 0) : Step s (.enter p c) ((s.take q issued).ret p (.val msgsz))
  | control {p msqid q cmd copy r} (free : s.Free p) (id : queueOf msqid = some q)
      (used : (s.queue q).inUse) : Step s (.msgctl p msqid cmd copy)
        ((s.setQueue q ((s.queue q).control cmd)).ret p r)
  | woken {p q msg issued} (at_ : s.pc p = .asleep q msg issued) :
      Step s (.kill p) (s.setPc p (.sending q msg false issued))
  | none {l} : Step s l s

theorem State.Free.not_asleep {s : State n} (free : s.Free p) (q : Fin msgMaxQueues) :
    ¬(s.pc p).sleepsOn q := by
  obtain ⟨r, h⟩ := free
  rw [h]
  nofun

theorem step_sound {s s' : State n} (h : step l s = some s') : Step s l s' := by
  cases l with
  | msgget p =>
    obtain ⟨free, rfl⟩ := guarded h
    unfold State.msgget
    split
    · exact .ret free.not_asleep
    · exact .get free ‹_›
  | msgsnd p msqid msg msgsz flags =>
    obtain ⟨free, rfl⟩ := guarded h
    unfold State.msgsnd
    repeat' split
    all_goals first
      | exact .ret free.not_asleep
      | exact .sends free ‹_› (by simp_all)
  | msgrcv p msqid msgsz low high =>
    obtain ⟨free, rfl⟩ := guarded h
    unfold State.msgrcv
    repeat' split
    all_goals first
      | exact .ret free.not_asleep
      | exact .receives free ‹_› (by simp_all)
  | enter p copyout =>
    simp only [step] at h
    split at h
    next at_ =>
      cases h
      have out : ∀ q, ¬(s.pc p).sleepsOn q := by
        rw [at_]
        nofun
      unfold State.send
      repeat' split
      · exact .ret out
      · exact .sleeps at_ ‹_›
      · exact .accepts at_ ‹_›
    next at_ =>
      cases h
      have out : ∀ q, ¬(s.pc p).sleepsOn q := by
        rw [at_]
        nofun
      unfold State.receive
      repeat' split
      · exact .ret out
      · exact .ret out
      · exact .ret out
      · exact .takes at_ ‹_›
    next => cases h
  | msgctl p msqid cmd copy =>
    obtain ⟨free, rfl⟩ := guarded h
    unfold State.msgctl
    repeat' split
    · exact .ret free.not_asleep
    · exact .ret free.not_asleep
    · exact .control free ‹_› (by simp_all)
  | kill p =>
    simp only [step] at h
    split at h
    · cases h
      exact .woken ‹_›
    · cases h
      exact .none

section

variable {s s' : State n} {l : Label n}

namespace State

theorem setQueue_queue (s : State n) (q q' : Fin msgMaxQueues) (v : Queue) :
    (s.setQueue q v).queue q' = if q' = q then v else s.queue q' := update_apply ..

theorem setPc_pc (s : State n) (p p' : Fin n) (pc : Pc) :
    (s.setPc p pc).pc p' = if p' = p then pc else s.pc p' := update_apply ..

theorem ret_pc (s : State n) (p p' : Fin n) (r : Ret) :
    (s.ret p r).pc p' = if p' = p then .user r else s.pc p' := setPc_pc ..

@[simp] theorem ret_queue (s : State n) (p : Fin n) (r : Ret) : (s.ret p r).queue = s.queue := rfl

end State

/-- What a step to `s'` can do to the process `p`. -/
inductive Move (s s' : State n) (p : Fin n) : Pc → Prop
  | same : Move s s' p (s.pc p)
  | ret {r} : Move s s' p (.user r)
  | sends {q msg nowait} (used : (s.queue q).inUse) (same : s'.queue = s.queue) :
      Move s s' p (.sending q msg nowait (s.queue q).removals)
  | receives {q msgsz msgtyp} (used : (s.queue q).inUse) (same : s'.queue = s.queue) :
      Move s s' p (.receiving q msgsz msgtyp (s.queue q).removals)
  | sleeps {q msg nowait issued} (at_ : s.pc p = .sending q msg nowait issued) (full : s.Full q)
      (same : s'.queue = s.queue) : Move s s' p (.asleep q msg issued)
  | woken {q msg issued} (at_ : s.pc p = .asleep q msg issued) :
      Move s s' p (.sending q msg false issued)

theorem Move.wakeup (q : Fin msgMaxQueues) : Move s s' p ((s.wakeup q).pc p) := by
  simp only [State.wakeup]
  split
  next at_ =>
    split
    · exact .woken at_
    · exact .same
  next => exact .same

theorem Step.move (st : Step s l s') (p : Fin n) : Move s s' p (s'.pc p) := by
  have of_setPc : ∀ {p' pc}, (p = p' → Move s s' p pc) → Move s s' p ((s.setPc p' pc).pc p) := by
    intro p' pc h
    rw [State.setPc_pc]
    split
    · exact h ‹_›
    · exact .same
  have of_ret : ∀ {t : State n} {p' r}, Move s s' p (t.pc p) → Move s s' p ((t.ret p' r).pc p) := by
    intro t p' r h
    rw [State.ret_pc]
    split
    · exact .ret
    · exact h
  cases st with
  | ret out | get free found | takes at_ some | control free id used => exact of_ret .same
  | sends free id used => exact of_setPc fun _ => .sends used rfl
  | receives free id used => exact of_setPc fun _ => .receives used rfl
  | sleeps at_ full => exact of_setPc fun e => .sleeps (e ▸ at_) full rfl
  | accepts at_ room => exact of_ret (.wakeup _)
  | woken at_ => exact of_setPc fun e => .woken (e ▸ at_)
  | none => exact .same

/-- What a step can do to the queue `q`. -/
inductive Turn (s : State n) (q : Fin msgMaxQueues) : Label n → Queue → Prop
  | same {l : Label n} : Turn s q l (s.queue q)
  | get {p : Fin n} (found : s.findUnused = some q) : Turn s q (.msgget p) (s.queue q).get
  | push {p : Fin n} {c msg nowait issued} (at_ : s.pc p = .sending q msg nowait issued)
      (room : ¬s.Full q) : Turn s q (.enter p c) ((s.queue q).push msg issued)
  | pop {p : Fin n} {c msgsz msgtyp issued} (at_ : s.pc p = .receiving q msgsz msgtyp issued)
      (some : (s.queue q).msgCount ≠ 0) :
      Turn s q (.enter p c) ((s.queue q).pop (s.front q) issued)
  | control {p : Fin n} {msqid cmd copy} (id : queueOf msqid = some q)
      (used : (s.queue q).inUse) : Turn s q (.msgctl p msqid cmd copy) ((s.queue q).control cmd)

theorem Step.turn (st : Step s l s') (q : Fin msgMaxQueues) : Turn s q l (s'.queue q) := by
  cases st with
  | ret out | sends free id used | receives free id used | sleeps at_ full | woken at_ | none =>
    exact .same
  | @get p q' free found =>
    rw [State.ret_queue, State.setQueue_queue]
    split
    next e =>
      subst e
      exact .get found
    next => exact .same
  | @accepts c p q' msg nowait issued at_ room =>
    show Turn s q _ ((s.setQueue q' ((s.queue q').push msg issued)).queue q)
    rw [State.setQueue_queue]
    split
    next e =>
      subst e
      exact .push at_ room
    next => exact .same
  | @takes c p q' msgsz msgtyp issued at_ some =>
    rw [State.ret_queue, State.take, State.setQueue_queue]
    split
    next e =>
      subst e
      exact .pop at_ some
    next => exact .same
  | @control p msqid q' cmd copy r free id used =>
    rw [State.ret_queue, State.setQueue_queue]
    split
    next e =>
      subst e
      exact .control id used
    next => exact .same

end

/-- Every queue unused, empty and of the given size: 0 in the memory that `main` boots with,
`MSG_MAX_SIZE` after `msginit`. -/
def start (n : Nat) (size : Int) : State n where
  queue := fun _ => ⟨false, 0, 0, 0, size, [], [], 0, none, 0, false⟩
  messages := fun _ => ⟨0, fun _ => 0⟩
  pc := fun _ => .user .none

def boot (n : Nat) : State n := start n 0

def msginit (n : Nat) : State n := start n msgMaxSize

end Xv6.Msg
