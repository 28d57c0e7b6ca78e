import Xv6.Lib.Run
import Xv6.Lib.Tally

/-! `push_off`, `pop_off`, `acquire` and `release` of `kernel/spinlock.c`, and the switches between
kernel threads and schedulers, which carry `intena` along. `push_off` is one step: an interrupt
within it returns with interrupts on, as it found them. -/

namespace Xv6.Interrupts

open Transition Tally
open Function (update update_apply update_of_ne update_self)

/-- The panics, those of `sched` without the one that tests `p->state`. -/
inductive Panic
  | acquire
  | release
  | popOffInterruptible
  | popOff
  | schedLock
  | schedLocks
  | schedInterruptible
  deriving DecidableEq

/-- The lock of a process, or another one. -/
abbrev Lock (n m : Nat) : Type := Fin n ⊕ Fin m

/-- `struct cpu`, with the interrupt bit and the lock that it spins for. `proc` is the process whose
kernel thread runs, if it is not the scheduler. The last two fields record the unmatched calls of
`push_off`, and whether interrupts were on when the thread's count last left 0. -/
structure Cpu (n m : Nat) where
  proc : Option (Fin n)
  noff : Int
  intena : Bool
  intr : Bool
  spins : Option (Lock n m)
  pushes : Int
  left : Option Bool

/-- The kernel thread of a process.  In `sched` it has its `intena`, and its record. -/
inductive Thread
  | running
  | new
  | switched (intena : Bool) (left : Option Bool)
  deriving DecidableEq

/-- The processors, the locks with the processors that hold them, and the threads. -/
structure State (n m : Nat) where
  cpu : Nat → Cpu n m
  lock : Lock n m → Option Nat
  thread : Fin n → Thread
  panic : Option Panic

inductive Label (n m : Nat)
  | pushOff (c : Nat)
  | popOff (c : Nat)
  | acquire (c : Nat) (lk : Lock n m)
  /-- the end of the loop of `acquire` -/
  | take (c : Nat)
  | release (c : Nat) (lk : Lock n m)
  /-- `intr_on`, `intr_off`, an interrupt or the return from it, where no lock is held -/
  | intr (c : Nat) (on : Bool)
  | sched (c : Nat)
  /-- `swtch` in `scheduler` -/
  | swtch (c : Nat) (p : Fin n)
  | allocproc (p : Fin n)

variable {n m : Nat}

namespace Cpu

variable (v : Cpu n m)

/-- `push_off`, after which the processor spins for a lock or goes on. -/
def pushOff (spins : Option (Lock n m)) : Cpu n m where
  proc := v.proc
  noff := v.noff + 1
  intena := if v.noff = 0 then v.intr else v.intena
  intr := false
  spins := spins
  pushes := v.pushes + 1
  left := if v.noff = 0 then some v.intr else v.left

def popOff : Except Panic (Cpu n m) :=
  if v.intr then .error .popOffInterruptible
  else if v.noff < 1 then .error .popOff
  else .ok { v with noff := v.noff - 1, intr := v.noff - 1 = 0 && v.intena }

end Cpu

namespace State

variable (s : State n m) (c : Nat)

def setCpu (v : Cpu n m) : State n m := { s with cpu := update s.cpu c v }

def fail (e : Panic) : State n m := { s with panic := some e }

def popOff (v : Cpu n m) : State n m :=
  match v.popOff with
  | .ok v => s.setCpu c v
  | .error e => s.fail e

def acquire (lk : Lock n m) : State n m :=
  if s.lock lk = some c then (s.setCpu c ((s.cpu c).pushOff none)).fail .acquire
  else s.setCpu c ((s.cpu c).pushOff (some lk))

def take (lk : Lock n m) : State n m :=
  { s.setCpu c { s.cpu c with spins := none, pushes := (s.cpu c).pushes - 1 } with
    lock := update s.lock lk (some c) }

def release (lk : Lock n m) : State n m :=
  if s.lock lk = some c then { s with lock := update s.lock lk none }.popOff c (s.cpu c)
  else s.fail .release

def sched (p : Fin n) : State n m :=
  if s.lock (.inl p) ≠ some c then s.fail .schedLock
  else if (s.cpu c).noff ≠ 1 then s.fail .schedLocks
  else if (s.cpu c).intr then s.fail .schedInterruptible
  else { s.setCpu c { s.cpu c with proc := none } with
    thread := update s.thread p (.switched (s.cpu c).intena (s.cpu c).left) }

/-- The switch to `p`, with the assignment of `intena` at the end of `sched` if `p` is there. -/
def swtch (p : Fin n) (intena : Bool) (left : Option Bool) : State n m :=
  { s.setCpu c { s.cpu c with proc := some p, intena := intena, left := left } with
    thread := update s.thread p .running }

end State

/-- A processor that spins does nothing else.  The scheduler switches with the lock of the process
and no other. -/
def step (l : Label n m) (s : State n m) : Option (State n m) :=
  if s.panic ≠ none then none
  else match l with
  | .pushOff c =>
    if (s.cpu c).spins = none then some (s.setCpu c ((s.cpu c).pushOff none)) else none
  | .popOff c =>
    if (s.cpu c).spins = none then
      some (s.popOff c { s.cpu c with pushes := (s.cpu c).pushes - 1 })
    else none
  | .acquire c lk => if (s.cpu c).spins = none then some (s.acquire c lk) else none
  | .take c =>
    match (s.cpu c).spins with
    | some lk => if s.lock lk = none then some (s.take c lk) else none
    | none => none
  | .release c lk => if (s.cpu c).spins = none then some (s.release c lk) else none
  | .intr c on =>
    if (s.cpu c).noff = 0 then some (s.setCpu c { s.cpu c with intr := on }) else none
  | .sched c =>
    match (s.cpu c).proc with
    | some p => if (s.cpu c).spins = none then some (s.sched c p) else none
    | none => none
  | .swtch c p =>
    if (s.cpu c).proc = none ∧ (s.cpu c).spins = none ∧ s.lock (.inl p) = some c ∧
        (s.cpu c).noff = 1 then
      match s.thread p with
      | .running => none
      | .new => some (s.swtch c p (s.cpu c).intena none)
      | .switched intena left => some (s.swtch c p intena left)
    else none
  | .allocproc p =>
    if s.thread p = .running then none else some { s with thread := update s.thread p .new }

/-- Each `pop_off` matches an earlier `push_off` on the processor. -/
def Matched (s : State n m) : Label n m → Prop
  | .popOff c => 0 < (s.cpu c).pushes
  | _ => True

/-- No process has run, the locks are free and interrupts are off. -/
def boot : State n m where
  cpu := fun _ => ⟨none, 0, false, false, none, 0, none⟩
  lock := fun _ => none
  thread := fun _ => .new
  panic := none

variable {s s' : State n m} {v : Cpu n m} {c : Nat} {p : Fin n} {lk : Lock n m} {held : Int}

/-- What holds of a processor that holds `held` locks. -/
structure CpuOk (v : Cpu n m) (held : Int) : Prop where
  count : v.noff = held + v.pushes
  nonneg : 0 ≤ v.pushes
  spins : v.spins ≠ none → 0 < v.pushes
  off : 0 < v.noff → v.intr = false
  kept : ∀ b, v.proc ≠ none → 0 < v.noff → v.left = some b → v.intena = b

structure Inv (s : State n m) : Prop where
  cpu : ∀ c, CpuOk (s.cpu c) (tally s.lock c)
  kept : ∀ p i b, s.thread p = .switched i (some b) → i = b
  panic : s.panic ≠ some .popOff ∧ s.panic ≠ some .popOffInterruptible

theorem CpuOk.pushOff (h : CpuOk v held) (_ : 0 ≤ held) (spins : Option (Lock n m)) :
    CpuOk (v.pushOff spins) held := by
  obtain ⟨count, nonneg, -, -, kept⟩ := h
  constructor <;> grind [Cpu.pushOff]

/-- `pop_off` after the processor gave up a lock or one of its calls of `push_off`. -/
theorem CpuOk.popOff (h : CpuOk v held) (idle : v.spins = none) (nonneg : 0 ≤ less ∧ 0 ≤ pushes)
    (count : v.noff = less + pushes + 1) :
    ∃ v', { v with pushes := pushes }.popOff = .ok v' ∧ CpuOk v' less := by
  obtain ⟨-, -, -, off, kept⟩ := h
  refine ⟨{ v with pushes := pushes, noff := v.noff - 1, intr := v.noff - 1 = 0 && v.intena }, ?_, ?_⟩
  · grind [Cpu.popOff]
  · constructor <;> grind

theorem tally_lock (g : Lock n m → Option Nat) (lk : Lock n m) (o : Option Nat) (d : Nat) :
    tally (update g lk o) d =
      tally g d + (if o = some d then 1 else 0) - (if g lk = some d then 1 else 0) := by
  rw [tally_update, Pi.sub_apply, Pi.add_apply, pointer_apply, pointer_apply]

/-- The processor `c` changes, with its locks. -/
theorem Inv.turn (h : Inv s) (mine : CpuOk v (tally lock c))
    (others : ∀ d, d ≠ c → tally lock d = tally s.lock d) :
    Inv { s.setCpu c v with lock := lock } := by
  refine ⟨fun d => ?_, h.kept, h.panic⟩
  show CpuOk (update s.cpu c v d) (tally lock d)
  by_cases hd : d = c
  · rwa [hd, update_self]
  · rw [update_of_ne hd, others d hd]
    exact h.cpu d

theorem Inv.setCpu (h : Inv s) (mine : CpuOk v (tally s.lock c)) : Inv (s.setCpu c v) :=
  h.turn mine fun _ _ => rfl

theorem Inv.setThread (h : Inv s) (kept : ∀ i b, t = .switched i (some b) → i = b) :
    Inv { s with thread := update s.thread p t } := by
  refine ⟨h.cpu, fun q i b (hq : update s.thread p t q = _) => ?_, h.panic⟩
  rw [update_apply] at hq
  split at hq
  · exact kept i b hq
  · exact h.kept q i b hq

theorem Inv.fail (h : Inv s) (ne : e ≠ .popOff ∧ e ≠ .popOffInterruptible) : Inv (s.fail e) :=
  ⟨h.cpu, h.kept, fun eq => ne.1 (Option.some.inj eq), fun eq => ne.2 (Option.some.inj eq)⟩

theorem Inv.release (h : Inv s) (idle : (s.cpu c).spins = none) : Inv (s.release c lk) := by
  unfold State.release
  split
  next mine =>
    have less := tally_lock s.lock lk none
    have old := h.cpu c
    obtain ⟨v, eq, ok⟩ := old.popOff idle ⟨tally_nonneg (update s.lock lk none) c, old.nonneg⟩
      (by rw [less, if_neg nofun, if_pos mine, old.count]; omega)
    rw [State.popOff, show (s.cpu c).popOff = .ok v from eq]
    refine h.turn ok fun d hd => ?_
    rw [less, if_neg nofun, if_neg fun e => hd (Option.some.inj (e.symm.trans mine))]
    omega
  next => exact h.fail ⟨nofun, nofun⟩

theorem Inv.take (h : Inv s) (spins : (s.cpu c).spins = some lk) (free : s.lock lk = none) :
    Inv (s.take c lk) := by
  have more := tally_lock s.lock lk (some c)
  obtain ⟨count, -, pushes, off, kept⟩ := h.cpu c
  have pos := pushes (by rw [spins]; nofun)
  refine h.turn ⟨?_, Int.sub_nonneg.mpr pos, nofun, off, kept⟩ fun d hd => ?_
  · rw [more, if_pos rfl, free, if_neg nofun]
    simp only
    omega
  · rw [more, if_neg fun e => hd (Option.some.inj e).symm, free, if_neg nofun]
    omega

theorem Inv.sched (h : Inv s) (proc : (s.cpu c).proc = some p) : Inv (s.sched c p) := by
  obtain ⟨count, nonneg, spins, off, kept⟩ := h.cpu c
  unfold State.sched
  split
  · exact h.fail ⟨nofun, nofun⟩
  split
  · exact h.fail ⟨nofun, nofun⟩
  next one =>
    split
    · exact h.fail ⟨nofun, nofun⟩
    have cpu := h.setCpu (c := c) (v := { s.cpu c with proc := none })
      ⟨count, nonneg, spins, off, fun _ some => absurd rfl some⟩
    refine cpu.setThread fun i b eq => ?_
    obtain ⟨rfl, left⟩ := Thread.switched.inj eq
    exact kept b (by rw [proc]; nofun) (by omega) left

theorem Inv.swtch (h : Inv s)
    (kept : ∀ b, left = some b → intena = b) : Inv (s.swtch c p intena left) := by
  obtain ⟨count, nonneg, spins, off, -⟩ := h.cpu c
  have cpu := h.setCpu (c := c)
    (v := { s.cpu c with proc := some p, intena := intena, left := left })
    ⟨count, nonneg, spins, off, fun b _ _ => kept b⟩
  exact cpu.setThread nofun

theorem Inv.step (h : Inv s) (ok : Matched s l) (hs : step l s = some s') : Inv s' := by
  have pushed := fun c spins => h.setCpu ((h.cpu c).pushOff (tally_nonneg _ c) spins)
  unfold Interrupts.step at hs
  split at hs
  · cases hs
  cases l with
  | pushOff c =>
    obtain ⟨-, rfl⟩ := guarded hs
    exact pushed c none
  | popOff c =>
    obtain ⟨idle, rfl⟩ := guarded hs
    have left : 0 ≤ (s.cpu c).pushes - 1 := Int.sub_nonneg.mpr ok
    obtain ⟨v, eq, less⟩ := (h.cpu c).popOff idle ⟨tally_nonneg s.lock c, left⟩
      (by rw [(h.cpu c).count]; omega)
    rw [State.popOff, eq]
    exact h.setCpu less
  | acquire c lk =>
    obtain ⟨-, rfl⟩ := guarded hs
    unfold State.acquire
    split
    · exact (pushed c none).fail ⟨nofun, nofun⟩
    · exact pushed c (some lk)
  | take c =>
    dsimp only at hs
    split at hs
    next lk spins =>
      obtain ⟨free, rfl⟩ := guarded hs
      exact h.take spins free
    next => cases hs
  | release c lk =>
    obtain ⟨idle, rfl⟩ := guarded hs
    exact h.release idle
  | intr c on =>
    obtain ⟨zero, rfl⟩ := guarded hs
    obtain ⟨count, nonneg, spins, -, kept⟩ := h.cpu c
    exact h.setCpu ⟨count, nonneg, spins, fun pos => absurd zero pos.ne', kept⟩
  | sched c =>
    dsimp only at hs
    split at hs
    next p proc =>
      obtain ⟨-, rfl⟩ := guarded hs
      exact h.sched proc
    next => cases hs
  | swtch c p =>
    obtain ⟨-, hs⟩ := Option.ite_none_right_eq_some.mp hs
    split at hs <;> cases hs
    next => exact h.swtch nofun
    next i left at_ => exact h.swtch fun b hb => h.kept p i b (hb ▸ at_)
  | allocproc p =>
    obtain ⟨-, hs⟩ := Option.ite_none_left_eq_some.mp hs
    cases hs
    exact h.setThread nofun

/-- Only `pop_off` makes the count of a processor 0. -/
theorem step_lands (hs : step l s = some s') (pos : 0 < (s.cpu c).noff)
    (zero : (s'.cpu c).noff = 0) : (s'.cpu c).intr = (s.cpu c).intena := by
  simp only [Interrupts.step, State.acquire, State.release, State.popOff, State.sched, Cpu.popOff]
    at hs
  repeat' split at hs
  all_goals cases hs
  all_goals
    simp only [State.setCpu, State.fail, State.take, State.swtch, update_apply] at zero ⊢
    grind [Cpu.pushOff]

/-- When every `pop_off` matches a `push_off`, interrupts are off where the count is not 0, the
count is that of the locks and the open calls of `push_off`, `pop_off` does not panic, and a step
that takes the count of a process's thread to 0 leaves interrupts as they were when it left 0. -/
theorem interrupts_nest (run : Reach step Matched (boot : State n m) s) :
    (∀ c, 0 < (s.cpu c).noff → (s.cpu c).intr = false) ∧
    (∀ c, (s.cpu c).noff = tally s.lock c + (s.cpu c).pushes) ∧
    (s.panic ≠ some .popOff ∧ s.panic ≠ some .popOffInterruptible) ∧
    ∀ l s' c p b, step l s = some s' → (s.cpu c).proc = some p → (s.cpu c).left = some b →
      0 < (s.cpu c).noff → (s'.cpu c).noff = 0 → (s'.cpu c).intr = b := by
  have inv : Inv s := by
    refine run.invariant ⟨fun c => ⟨?_, le_rfl, nofun, nofun, nofun⟩, nofun, nofun, nofun⟩
      fun _ _ _ h ok hs => h.step ok hs
    simp [boot]
  refine ⟨fun c => (inv.cpu c).off, fun c => (inv.cpu c).count, inv.panic, ?_⟩
  intro l s' c p b hs proc left pos zero
  rw [step_lands hs pos zero]
  exact (inv.cpu c).kept b (by rw [proc]; nofun) pos left

/-- A process gives up one processor with interrupts on and releases its lock on another one, whose
scheduler had them off. -/
theorem interrupts_nest_resumed : ∃ s s' : State 1 0,
    step (.release 1 (.inl 0)) s = some s' ∧ (s'.cpu 1).intr = true := by
  obtain ⟨s, run, proc, left, one, next⟩ : ∃ s : State 1 0, Reach step Matched boot s ∧
      (s.cpu 1).proc = some 0 ∧ (s.cpu 1).left = some true ∧ (s.cpu 1).noff = 1 ∧
      (step (.release 1 (.inl 0)) s).any (fun s' => (s'.cpu 1).noff = 0) = true :=
    exists_reach_of_exec (fun s l h => by cases l <;> trivial)
      [.intr 0 true, .acquire 0 (.inl 0), .take 0, .swtch 0 0, .release 0 (.inl 0),
        .acquire 0 (.inl 0), .take 0, .sched 0, .release 0 (.inl 0),
        .acquire 1 (.inl 0), .take 1, .swtch 1 0]
      (show (exec step (fun _ l => match l with
        | .popOff _ => false
        | _ => true) _ _).any _ = true by decide +kernel)
  obtain ⟨s', hs, zero⟩ := (Option.any_eq_true _ _).mp next
  exact ⟨s, s', hs, (interrupts_nest run).2.2.2 _ s' 1 0 true hs proc left (by omega)
    (of_decide_eq_true zero)⟩

end Xv6.Interrupts
