import Xv6.Kernel.Signal
import Xv6.Kernel.Sleepers

/-! `initproc` and its `killed` flag, which makes `usertrap` call `exit`: only `kill`, a fault and
Ctrl-C set it. -/

namespace Xv6.Signal

open Transition Kernel

variable {n : Nat} {s s' : State n} {p : Fin n}

/-- `usertrap` calls `exit(-1)` in `p`: it is in the kernel on its own behalf, with `killed` set or
set by `handle_signals`. -/
def ExitsKilled (s : State n) (p : Fin n) : Prop :=
  s.kernel.Free p ∧ (s.kernel.killed p = true ∨
    ∃ sepc, (s.usertrap p sepc).kernel.killed p = true)

/-- No step is a `kill` of the pid of `initproc`, a fault of it, or Ctrl-C while it runs. -/
def SparesInit (s : State n) : Label n → Prop
  | .kernel l => s.kernel.marker s.kernel.table.initproc l = false
  | .signal .. | .ecall .. => True

instance : DecidableRel (SparesInit (n := n)) := fun s l =>
  match l with
  | .kernel l => inferInstanceAs (Decidable (s.kernel.marker s.kernel.table.initproc l = false))
  | .signal .. | .ecall .. => .isTrue trivial

/-- No signal is pending, and `initproc` is not killed. -/
structure Spared (s : State n) : Prop where
  pending : ∀ p, s.pendingSignals p = 0
  init : s.kernel.killed s.kernel.table.initproc = false

namespace Spared

theorem handleSignals (h : Spared s) (sepc : UInt64) :
    (s.setEpc p sepc).handleSignals p = s.setEpc p sepc := by
  unfold State.handleSignals
  rw [if_neg]
  show ¬(s.pendingSignals p &&& _ ≠ 0)
  rw [h.pending p, UInt32.zero_and]
  exact fun ne => ne rfl

theorem usertrap (h : Spared s) (sepc : UInt64) : (s.usertrap p sepc).kernel = s.kernel ∧
    (s.usertrap p sepc).pendingSignals = s.pendingSignals := by
  unfold State.usertrap
  rw [h.handleSignals]
  dsimp only
  split <;> exact ⟨rfl, rfl⟩

theorem step {l : Label n} (h : Spared s) (ok : SparesInit s l) (hstep : step l s = some s') :
    Spared s' := by
  cases l with
  | kernel l =>
    obtain ⟨k, hk, rfl⟩ := Option.map_eq_some_iff.mp hstep
    have st := step_sound hk
    refine ⟨h.pending, ?_⟩
    rw [st.initproc, ← Bool.not_eq_true]
    intro marked
    rcases st.marker marked with before | mark
    · rw [h.init] at before
      cases before
    · rw [ok] at mark
      cases mark
  | signal p signum handler =>
    obtain ⟨-, rfl⟩ := guarded hstep
    unfold State.signal
    split
    · exact ⟨h.pending, h.init⟩
    · exact ⟨h.pending, h.init⟩
  | ecall p sepc =>
    obtain ⟨-, rfl⟩ := guarded hstep
    obtain ⟨kernel, pending⟩ := h.usertrap (p := p) sepc
    refine ⟨fun q => ?_, ?_⟩
    · rw [pending]
      exact h.pending q
    · rw [kernel]
      exact h.init

end Spared

/-- If no process kills the pid of `initproc`, it does not fault, and Ctrl-C does not come while it
is the current process, `usertrap` never makes it exit. -/
theorem init_not_killed [NeZero n] (run : Reach step SparesInit (boot n) s) :
    ¬ExitsKilled s s.kernel.table.initproc := by
  have spared : Spared s := run.invariant (I := Spared)
    ⟨fun _ => rfl, by
      show ((userinit n).proc (userinit n).initproc).killed = false
      rw [userinit_eq]
      rfl⟩
    fun _ _ _ h ok hstep => h.step ok hstep
  rintro ⟨-, killed | ⟨sepc, killed⟩⟩
  · rw [spared.init] at killed
    cases killed
  · rw [(spared.usertrap sepc).1, spared.init] at killed
    cases killed

def forksChild : List (Label nproc) :=
  [.kernel (.pick 0), .kernel (.fork 0 true true), .kernel (.forkParent 0), .kernel (.forkRun 0),
    .kernel (.pick 1), .ecall 1 0x100]

theorem init_not_killed_child : ∃ s : State nproc, Reach step SparesInit (boot nproc) s ∧
    ExitsKilled s 1 ∧ ¬ExitsKilled s s.kernel.table.initproc := by
  obtain ⟨s, reach, free, killed⟩ := exists_reach step SparesInit (boot nproc)
    (forksChild ++ [.kernel (.consoleintr Console.ctrlC (some 1))])
    (P := fun s : State nproc => s.kernel.Free 1 ∧ s.kernel.killed 1 = true) (by decide +kernel)
  exact ⟨s, reach, ⟨free, .inl killed⟩, init_not_killed reach⟩

theorem init_killed_by_child : ∃ s : State nproc, Reach step (fun _ _ => True) (boot nproc) s ∧
    ExitsKilled s s.kernel.table.initproc := by
  obtain ⟨s, reach, free, killed⟩ := exists_reach step (fun _ _ => True) (boot nproc)
    (forksChild ++ [.kernel (.kill 1 1)])
    (P := fun s : State nproc => s.kernel.Free s.kernel.table.initproc ∧
      s.kernel.killed s.kernel.table.initproc = true) (by decide +kernel)
  exact ⟨s, reach, free, .inl killed⟩

end Xv6.Signal
