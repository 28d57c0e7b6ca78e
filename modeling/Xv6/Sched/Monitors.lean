import Xv6.Log.Waits
import Xv6.Uart.System
import Xv6.Virtio.Waits

/-! The sleep-lock, and the waits of every monitor with one lock and one condition: a process that
sleeps has a condition to wait for. -/

namespace Xv6.Sleeplock

/-- `struct sleeplock` with the processes inside `acquiresleep` and those of them that sleep.  The
spinlock `lk->lk` is free between steps. -/
structure State (P : Type) where
  locked : Bool
  pid : Int
  acquiring : P → Bool
  asleep : P → Bool

/-- `run` takes a process through the loop of `acquiresleep`; `releasesleep` does not look at its
caller. -/
inductive Label (P : Type)
  | acquire (p : P)
  | run (p : P)
  | release
  | kill (p : P)

section

variable {P : Type} [DecidableEq P] (pid : P → Int)

def acquiresleep (p : P) (s : State P) : State P :=
  if s.locked then { s with asleep := Function.update s.asleep p true }
  else { s with
    locked := true, pid := pid p, acquiring := Function.update s.acquiring p false }

omit [DecidableEq P] in
def releasesleep (s : State P) : State P :=
  { s with locked := false, pid := 0, asleep := fun _ => false }

def step : Label P → State P → Option (State P)
  | .acquire p, s =>
    if s.acquiring p then none
    else some { s with acquiring := Function.update s.acquiring p true }
  | .run p, s =>
    if s.acquiring p = true ∧ s.asleep p = false then some (acquiresleep pid p s) else none
  | .release, s => some (releasesleep s)
  | .kill p, s => some { s with asleep := Function.update s.asleep p false }

def initsleeplock : State P := ⟨false, 0, fun _ => false, fun _ => false⟩

abbrev Reach : State P → Prop :=
  Transition.Reach (step pid) (fun _ _ => True) initsleeplock

variable {pid} {s s' : State P}

def Rested (s : State P) : Prop := Monitor.Justified s.asleep fun _ => s.locked = true

theorem Rested.acquiresleep (h : Rested s) (p : P) : Rested (acquiresleep pid p s) := by
  unfold Sleeplock.acquiresleep
  split
  next locked => exact h.sleep (p := p) locked
  next => exact fun _ _ => rfl

theorem Rested.step {l : Label P} (h : Rested s) (hs : step pid l s = some s') : Rested s' := by
  cases l with
  | acquire p =>
    obtain ⟨-, hs⟩ := Option.ite_none_left_eq_some.mp hs
    cases hs
    exact h
  | run p =>
    obtain ⟨-, rfl⟩ := Transition.guarded hs
    exact h.acquiresleep p
  | release =>
    cases hs
    exact Monitor.Justified.none
  | kill p =>
    cases hs
    exact h.wake p

theorem Rested.reach (run : Reach pid s) : Rested s :=
  run.invariant (I := Rested) Monitor.Justified.none fun _ _ _ h _ => h.step

end

end Xv6.Sleeplock

namespace Xv6

open Transition

/-- A process asleep in `begin_op`, in `acquiresleep`, in `virtio_disk_rw` for descriptors or for
its request, or in `uartputc` has what it waits for before it. -/
theorem monitor_waits_justified {P B : Type} [DecidableEq P] [DecidableEq B] :
    (∀ (g : Log.Geometry) (d : Disk) (s : Log.Waiting) (p : Pid),
      Transition.Reach (Log.Waiting.step g) (fun _ _ => True) (Log.Waiting.boot d) s →
      s.asleep p = true → s.log.committing = true ∨
        (s.log.lh.length : Int) + (s.log.outstanding + 1) * maxOpBlocks > logSize) ∧
    (∀ (pid : P → Int) (s : Sleeplock.State P) (p : P), Sleeplock.Reach pid s →
      s.asleep p = true → s.locked = true) ∧
    (∀ (s : Virtio.State P B) (p : P), Virtio.Reach s → s.asleep p = true →
      (∃ b write, s.pc p = .rw b write ∧
        ((List.range Virtio.num).filter s.disk.free).length < 3) ∨
      ∃ b idx k, s.pc p = .wait b idx k ∧ (s.buf b).disk = true) ∧
    ∀ (s : Uart.State P) (p : P), Uart.Reach s → s.asleep p = true →
      s.txW = s.txR + UInt64.ofNat Uart.txBufSize := by
  refine ⟨?_, ?_, ?_, ?_⟩
  · intro g d s p run sleeps
    exact ((Log.Waiting.Inv.reach run).asleep p sleeps).2
  · intro pid s p run sleeps
    exact Sleeplock.Rested.reach run p sleeps
  · intro s p run sleeps
    obtain ⟨busy, few⟩ := Virtio.Rested.reach run p sleeps
    cases at_ : s.pc p with
    | idle => exact absurd at_ busy
    | rw b write =>
      rw [at_] at few
      exact .inl ⟨b, write, rfl, few rfl⟩
    | wait b idx k =>
      exact .inr ⟨b, idx, k, rfl, (Virtio.Inv.reach run).disk_of_asleep at_ sleeps⟩
  · intro s p run sleeps
    exact Uart.Rested.reach run p sleeps

def Log.beginsFour : List Log.WaitLabel :=
  List.replicate 3 (.op .recover) ++ (List.range 4).map fun p => .op (.beginOp p)

def Sleeplock.acquiresTwo : List (Sleeplock.Label (Fin 3)) :=
  [.acquire 0, .run 0, .acquire 1, .run 1]

def Virtio.readsThree : List (Virtio.Label (Fin 3) (Fin 3)) :=
  [0, 1, 2].flatMap fun p => [.acquiresleep p p 5, .call p p false, .run p]

def Uart.fills : List (Uart.Label (Fin 3)) :=
  (List.range 33).flatMap fun c => [.call 0 (UInt8.ofNat c), .run 0 []]

/-- In each of these runs the last process sleeps, and so do the readers with descriptors. -/
theorem monitor_waits_justified_sleepers :
    (∃ s : Log.Waiting, s.asleep 3 = true ∧ (s.log.committing = true ∨
      (s.log.lh.length : Int) + (s.log.outstanding + 1) * maxOpBlocks > logSize)) ∧
    (∃ s : Sleeplock.State (Fin 3), s.asleep 1 = true ∧ s.locked = true) ∧
    (∃ s : Virtio.State (Fin 3) (Fin 3), (s.asleep 0 = true ∧ s.asleep 2 = true) ∧
      s.pc 2 = .rw 2 false ∧ ((∃ b write, s.pc 2 = .rw b write ∧
        ((List.range Virtio.num).filter s.disk.free).length < 3) ∨
      ∃ b idx k, s.pc 2 = .wait b idx k ∧ (s.buf b).disk = true)) ∧
    ∃ s : Uart.State (Fin 3), s.asleep 0 = true ∧
      s.txW = s.txR + UInt64.ofNat Uart.txBufSize := by
  obtain ⟨log, lock, disk, uart⟩ := monitor_waits_justified (P := Fin 3) (B := Fin 3)
  refine ⟨?_, ?_, ?_, ?_⟩
  · obtain ⟨s, run, sleeps⟩ := exists_reach (Log.Waiting.step (Log.mkfsGeometry 2))
      (fun _ _ => True) (Log.Waiting.boot fun _ _ => 0) Log.beginsFour
      (P := fun s : Log.Waiting => s.asleep 3 = true) (by decide +kernel)
    exact ⟨s, sleeps, log _ _ s 3 run sleeps⟩
  · obtain ⟨s, run, sleeps⟩ := exists_reach (Sleeplock.step fun p => (p.val : Int))
      (fun _ _ => True) Sleeplock.initsleeplock Sleeplock.acquiresTwo
      (P := fun s : Sleeplock.State (Fin 3) => s.asleep 1 = true) (by decide +kernel)
    exact ⟨s, sleeps, lock _ s 1 run sleeps⟩
  · obtain ⟨s, run, sleeps, at_⟩ := exists_reach Virtio.step (fun _ _ => True) Virtio.boot
      Virtio.readsThree
      (P := fun s : Virtio.State (Fin 3) (Fin 3) =>
        (s.asleep 0 = true ∧ s.asleep 2 = true) ∧ s.pc 2 = .rw 2 false) (by decide +kernel)
    exact ⟨s, sleeps, at_, disk s 2 run sleeps.2⟩
  · obtain ⟨s, run, sleeps⟩ := exists_reach Uart.step (fun _ _ => True) Uart.boot Uart.fills
      (P := fun s : Uart.State (Fin 3) => s.asleep 0 = true) (by decide +kernel)
    exact ⟨s, sleeps, uart s 0 run sleeps⟩

end Xv6
