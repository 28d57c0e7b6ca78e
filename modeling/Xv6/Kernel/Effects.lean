import Xv6.Kernel.System

/-! What a step can do to the table: most steps only move processes between sleeping, runnable and
running. -/

namespace Xv6.Kernel

variable {n : Nat}

namespace Table

/-- Every entry keeps its identity and its family, and stays unused, in use, or exited. -/
structure Quiet (t t' : Table n) : Prop where
  pid : ∀ q, (t'.proc q).pid = (t.proc q).pid
  parent : ∀ q, (t'.proc q).parent = (t.proc q).parent
  xstate : ∀ q, (t'.proc q).xstate = (t.proc q).xstate
  threadParent : ∀ q, (t'.proc q).threadParent = (t.proc q).threadParent
  state : ∀ q, (t'.proc q).state = (t.proc q).state ∨
    (t.proc q).state.alive ∧ (t'.proc q).state.alive
  nextpid : t'.nextpid = t.nextpid
  initproc : t'.initproc = t.initproc
  issued : t'.issued = t.issued
  birth : t'.birth = t.birth

namespace Quiet

variable {t t' : Table n} {p : Fin n}

theorem refl (t : Table n) : Quiet t t :=
  ⟨fun _ => rfl, fun _ => rfl, fun _ => rfl, fun _ => rfl, fun _ => .inl rfl, rfl, rfl, rfl, rfl⟩

theorem wakeup (t : Table n) (me chan) : Quiet t (t.wakeup me chan) where
  pid _ := wakeup_pid
  parent _ := wakeup_parent
  xstate _ := wakeup_xstate
  threadParent _ := wakeup_threadParent
  state q := by
    rcases wakeup_state_eq t me chan q with h | ⟨h, h'⟩
    · exact .inl h
    · exact .inr ⟨by rw [h]; rfl, by rw [h']; rfl⟩
  nextpid := rfl
  initproc := rfl
  issued := rfl
  birth := rfl

theorem set (pid : v.pid = (t.proc p).pid) (parent : v.parent = (t.proc p).parent)
    (xstate : v.xstate = (t.proc p).xstate)
    (threadParent : v.threadParent = (t.proc p).threadParent)
    (state : v.state = (t.proc p).state ∨ (t.proc p).state.alive ∧ v.state.alive) :
    Quiet t (t.set p v) := by
  constructor <;> first | rfl | (intro q; rw [set_proc]; split <;> simp_all)

theorem kill (t : Table n) (pid : UInt32) : Quiet t (t.kill pid).2 := by
  rcases t.kill_cases pid with ⟨h, -⟩ | ⟨q, -, h⟩
  · rw [h]; exact refl t
  · rw [h]
    refine set rfl rfl rfl rfl ?_
    unfold Proc.kill
    split
    next hs => exact .inr ⟨by rw [hs]; rfl, rfl⟩
    next => exact .inl rfl

theorem unused (h : Quiet t t') : (t'.proc q).state = .unused ↔ (t.proc q).state = .unused := by
  rcases h.state q with hs | ⟨hs, hs'⟩
  · rw [hs]
  · constructor <;> intro hu
    · rw [hu] at hs'; cases hs'
    · rw [hu] at hs; cases hs

end Quiet

end Table

namespace State

variable {s s' : State n} {p : Fin n} {io : Copies} {c : Call} {next : Next} {k : Int}

/-- What a pass of a loop leaves alone, what it does to the table, and how it goes on. -/
structure PassFrame (s : State n) (p : Fin n) (c : Call) (s' : State n) (next : Next) : Prop where
  pc : s'.pc = s.pc
  holder : s'.holder = s.holder
  forker : s'.forker = s.forker
  exited : s'.exited = s.exited
  table : s'.waits = s.waits ∧
      (s'.table = s.table ∨ ∃ chan, s'.table = s.table.wakeup (some p) (some chan)) ∨
    ∃ pp, c.lk = .wait ∧ s.table.findZombie p = some pp ∧ s' = s.reap p pp ∧
      next = .ret (.val (s.proc pp).pid)
  again : ∀ c', next = .again c' → c'.lk = c.lk ∧ c'.pipeEnd = c.pipeEnd
  sleep : ∀ c', next = .sleep c' → c' = c ∧ s.killed p = false

theorem PassFrame.idle (again : ∀ c', next = .again c' → c'.lk = c.lk ∧ c'.pipeEnd = c.pipeEnd)
    (sleep : ∀ c', next = .sleep c' → c' = c ∧ s.killed p = false) : PassFrame s p c s next :=
  ⟨rfl, rfl, rfl, rfl, .inl ⟨rfl, .inl rfl⟩, again, sleep⟩

theorem waitPass_frame :
    PassFrame s p (.wait addr) (s.waitPass p addr io).1 (s.waitPass p addr io).2 := by
  unfold waitPass
  split
  next pp hz =>
    split
    · exact .idle (by simp) (by simp)
    · exact ⟨rfl, rfl, rfl, rfl, .inr ⟨pp, rfl, hz, rfl, rfl⟩, by simp, by simp⟩
  next =>
    split
    · exact .idle (by simp) (by simp)
    · exact .idle (by simp) (by simp_all)

theorem sleepPass_frame {k : UInt32} :
    PassFrame s p (.sleep k ticks0) (s.sleepPass p k ticks0).1 (s.sleepPass p k ticks0).2 := by
  unfold sleepPass
  split
  · exact .idle (by simp [Call.lk, Call.pipeEnd]) (by simp)
  · repeat' split
    all_goals exact .idle (by simp) (by simp_all)

theorem pipewritePass_frame : PassFrame s p (.pipewrite pi k i)
    (s.pipewritePass p pi k i io).1 (s.pipewritePass p pi k i io).2 := by
  unfold pipewritePass
  repeat' split
  · exact .idle (by simp) (by simp)
  · exact ⟨rfl, rfl, rfl, rfl, .inl ⟨rfl, .inr ⟨_, rfl⟩⟩, by simp, by simp_all⟩
  · exact ⟨rfl, rfl, rfl, rfl, .inl ⟨rfl, .inr ⟨_, rfl⟩⟩, by simp, by simp⟩
  · exact ⟨rfl, rfl, rfl, rfl, .inl ⟨rfl, .inl rfl⟩, by simp [Call.lk, Call.pipeEnd], by simp⟩
  · exact ⟨rfl, rfl, rfl, rfl, .inl ⟨rfl, .inr ⟨_, rfl⟩⟩, by simp, by simp⟩

theorem pipereadWait_frame : PassFrame s p (.piperead pi k none)
    (s.pipereadWait p pi k).1 (s.pipereadWait p pi k).2 := by
  unfold pipereadWait
  repeat' split
  · exact .idle (by simp) (by simp)
  · exact .idle (by simp) (by simp_all)
  · exact .idle (by simp [Call.lk, Call.pipeEnd]) (by simp)

theorem pipereadCopy_frame : PassFrame s p (.piperead pi k (some i))
    (s.pipereadCopy p pi k i io).1 (s.pipereadCopy p pi k i io).2 := by
  unfold pipereadCopy
  repeat' split
  · exact ⟨rfl, rfl, rfl, rfl, .inl ⟨rfl, .inl rfl⟩, by simp [Call.lk, Call.pipeEnd], by simp⟩
  · exact ⟨rfl, rfl, rfl, rfl, .inl ⟨rfl, .inr ⟨_, rfl⟩⟩, by simp, by simp⟩
  · exact ⟨rfl, rfl, rfl, rfl, .inl ⟨rfl, .inr ⟨_, rfl⟩⟩, by simp, by simp⟩

theorem consolereadPass_frame : PassFrame s p (.consoleread target k)
    (s.consolereadPass p target k io).1 (s.consolereadPass p target k io).2 := by
  unfold consolereadPass
  dsimp only
  repeat' split
  all_goals
    exact ⟨rfl, rfl, rfl, rfl, .inl ⟨rfl, .inl rfl⟩, by simp [Call.lk, Call.pipeEnd], by simp_all⟩

theorem pass_frame (h : s.pass p io c = (s', next)) : PassFrame s p c s' next := by
  obtain ⟨rfl, rfl⟩ := Prod.mk.inj h.symm
  match c with
  | .wait _ => exact waitPass_frame
  | .sleep _ _ => exact sleepPass_frame
  | .piperead _ _ none => exact pipereadWait_frame
  | .piperead _ _ (some _) => exact pipereadCopy_frame
  | .pipewrite _ _ _ => exact pipewritePass_frame
  | .consoleread _ _ => exact consolereadPass_frame

theorem pass_wait_sleeps (h : s.pass p io (.wait addr) = (s', .sleep c')) :
    s' = s ∧ s.table.findZombie p = none := by
  simp only [pass, waitPass] at h
  repeat' split at h
  all_goals cases h
  exact ⟨rfl, ‹_›⟩

@[simp] theorem goOn_table : (s.goOn p c next).table = s.table := by cases next <;> rfl
@[simp] theorem goOn_forker : (s.goOn p c next).forker = s.forker := by cases next <;> rfl
@[simp] theorem goOn_exited : (s.goOn p c next).exited = s.exited := by cases next <;> rfl
@[simp] theorem goOn_waits : (s.goOn p c next).waits = s.waits := by cases next <;> rfl
@[simp] theorem goOn_pipe : (s.goOn p c next).pipe = s.pipe := by cases next <;> rfl

/-- The table changes quietly and nothing is recorded about the processes. -/
structure Calm (s s' : State n) : Prop where
  table : s.table.Quiet s'.table
  forker : s'.forker = s.forker
  exited : s'.exited = s.exited
  waits : s'.waits = s.waits

theorem Calm.setState (st : ProcState) (h : (s.proc p).state.alive) (h' : st.alive) :
    Calm s (s.setState p st) :=
  ⟨.set rfl rfl rfl rfl (.inr ⟨h, h'⟩), rfl, rfl, rfl⟩

theorem Calm.sleep (chan : Chan n) (h : (s.proc p).state.alive) : Calm s (s.sleep p chan) :=
  ⟨.set rfl rfl rfl rfl (.inr ⟨h, rfl⟩), rfl, rfl, rfl⟩

theorem Calm.pick (h : (s.proc p).state.alive) : Calm s (s.pick p) := by
  unfold State.pick
  split <;> exact ⟨.set rfl rfl rfl rfl (.inr ⟨h, rfl⟩), rfl, rfl, rfl⟩

theorem Calm.consoleintr (ch : UInt8) (cur : Option (Fin n)) : Calm s (s.consoleintr ch cur) := by
  unfold State.consoleintr
  repeat' split
  all_goals first
    | exact ⟨.refl _, rfl, rfl, rfl⟩
    | exact ⟨.wakeup _ _ _, rfl, rfl, rfl⟩
    | exact ⟨.set rfl rfl rfl rfl (.inl rfl), rfl, rfl, rfl⟩

theorem Calm.pipeclose (i : Nat) (w : Bool) : Calm s (s.pipeclose i w) := by
  unfold State.pipeclose
  split <;> exact ⟨.wakeup _ _ _, rfl, rfl, rfl⟩

theorem fork_table (s : State n) (p : Fin n) (mem copy : Bool) :
    (s.fork p mem copy).table = s.table ∨ ∃ np, s.table.findUnused = some np ∧
      ((s.fork p mem copy).table = (s.table.take np).freeproc np ∨
        (s.fork p mem copy).table = s.table.take np) := by
  unfold fork
  rcases s.table.allocproc_cases mem with hc | ⟨np, hf, hc | hc⟩ <;> simp only [hc]
  · exact .inl rfl
  · exact .inr ⟨np, hf, .inl rfl⟩
  · split
    · exact .inr ⟨np, hf, .inr rfl⟩
    · exact .inr ⟨np, hf, .inl rfl⟩

@[simp] theorem fork_waits (s : State n) (p : Fin n) (mem copy : Bool) :
    (s.fork p mem copy).waits = s.waits := by
  unfold fork
  split
  · rfl
  · split <;> rfl

theorem threadCreate_table (s : State n) (p : Fin n) (args mem : Bool) :
    (s.threadCreate p args mem).table = s.table ∨ ∃ np, s.table.findUnused = some np ∧
      ((s.threadCreate p args mem).table = (s.table.takeThread p np).freeproc np ∨
        (s.threadCreate p args mem).table = (s.table.takeThread p np).set np
          { s.table.newThread p np with state := .runnable }) := by
  unfold threadCreate
  split
  · rcases s.table.allocthread_cases p mem with hc | ⟨np, hf, hc | hc⟩ <;> simp only [hc]
    · exact .inl rfl
    · exact .inr ⟨np, hf, .inl rfl⟩
    · refine .inr ⟨np, hf, .inr ?_⟩
      simp [Table.set]
  · exact .inl rfl

end State

/-- The steps that make, hand over or free a process. -/
inductive Loud (s : State n) : Label n → State n → Prop
  | fork {p mem copy} (free : s.Free p) : Loud s (.fork p mem copy) (s.fork p mem copy)
  | forkParent {p np pid} (at_ : s.pc p = .forkParent np pid) (run : (s.proc p).state = .running)
      (lock : s.holder .wait = none) :
      Loud s (.forkParent p) ((s.setParent np p).setPc p (.forkRun np pid))
  | forkRun {p np pid} (at_ : s.pc p = .forkRun np pid) (run : (s.proc p).state = .running) :
      Loud s (.forkRun p) ((s.setState np .runnable).setPc p (.user (.val pid)))
  | exit {p status} (free : s.Free p) (init : p ≠ s.table.initproc)
      (lock : s.holder .wait = none) : Loud s (.exit p status) (s.exit p status)
  | reap {p io c pp} (at_ : s.pc p = .loop c) (run : (s.proc p).state = .running)
      (wait : c.lk = .wait) (found : s.table.findZombie p = some pp) :
      Loud s (.pass p io) ((s.reap p pp).goOn p c (.ret (.val (s.proc pp).pid)))
  | threadCreate {p args mem} (free : s.Free p) :
      Loud s (.threadCreate p args mem) (s.threadCreate p args mem)
  | threadJoin {p retval io} (free : s.Free p) :
      Loud s (.threadJoin p retval io) (s.threadJoin p retval io)

theorem Step.calm_or_loud {l : Label n} (h : Step s l s') : s.Calm s' ∨ Loud s l s' := by
  cases h with
  | fork free => exact .inr (.fork free)
  | forkParent at_ run lock => exact .inr (.forkParent at_ run lock)
  | forkRun at_ run => exact .inr (.forkRun at_ run)
  | exit free init lock => exact .inr (.exit free init lock)
  | kill free => exact .inl ⟨.kill _ _, rfl, rfl, rfl⟩
  | setkilled free => exact .inl ⟨.set rfl rfl rfl rfl (.inl rfl), rfl, rfl, rfl⟩
  | call | acquire | pipealloc | joined => exact .inl ⟨.refl _, rfl, rfl, rfl⟩
  | pass at_ run eq =>
    have frame := State.pass_frame eq
    rcases frame.table with ⟨hw, ht⟩ | ⟨pp, hlk, hz, rfl, rfl⟩
    · refine .inl ⟨?_, by simp [frame.forker], by simp [frame.exited], by simp [hw]⟩
      rcases ht with ht | ⟨chan, ht⟩ <;> rw [State.goOn_table, ht]
      · exact .refl _
      · exact .wakeup _ _ _
    · exact .inr (.reap at_ run hlk hz)
  | sleep _ run | block _ run =>
    exact .inl ⟨(State.Calm.sleep _ (by rw [run]; rfl)).table, rfl, rfl, rfl⟩
  | wake | clockintr => exact .inl ⟨.wakeup _ _ _, rfl, rfl, rfl⟩
  | pick run => exact .inl (.pick (by rw [run]; rfl))
  | yield run => exact .inl (.setState _ (by rw [run.1]; rfl) rfl)
  | consoleintr lock run => exact .inl (.consoleintr _ _)
  | pipeclose lock idle => exact .inl (.pipeclose _ _)
  | threadCreate free => exact .inr (.threadCreate free)
  | threadJoin free => exact .inr (.threadJoin free)

theorem Step.initproc {l : Label n} (st : Step s l s') : s'.table.initproc = s.table.initproc := by
  rcases st.calm_or_loud with calm | loud
  · exact calm.table.initproc
  cases loud with
  | fork free => rcases s.fork_table _ _ _ with ht | ⟨np, -, ht | ht⟩ <;> rw [ht] <;> rfl
  | forkParent | forkRun => rfl
  | exit free init lock => exact Table.exit_initproc
  | reap at_ run wait found => rw [State.goOn_table]; rfl
  | threadCreate free =>
    rcases s.threadCreate_table _ _ _ with ht | ⟨np, -, ht | ht⟩ <;> rw [ht] <;> rfl
  | threadJoin free =>
    unfold State.threadJoin
    repeat' split
    all_goals rfl

end Xv6.Kernel
