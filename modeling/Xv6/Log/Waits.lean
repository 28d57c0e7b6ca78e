import Xv6.Lib.Monitor
import Xv6.Log.Protocol

/-! The processes asleep in `begin_op`, which `end_op` wakes when it leaves an operation outstanding
and when its commit is over. -/

namespace Xv6.Log

open Transition Function

/-- The log with the processes that sleep on `&log`. -/
structure Waiting where
  log : State
  asleep : Pid → Bool

/-- A step of the log, or `kill`, which makes a sleeper runnable. -/
inductive WaitLabel
  | op (l : Label)
  | kill (p : Pid)

def State.wakes (s : State) : Label → Bool
  | .endOp _ => s.committing = false ∧ s.outstanding - 1 ≠ 0
  | .commit p => s.proc p = .commit .done
  | _ => false

def Label.begins : Label → Option Pid
  | .beginOp p => some p
  | _ => none

/-- Who sleeps after a step of the log to `t`: a process that goes through the loop of `begin_op`
sleeps or leaves it. -/
def Waiting.sleepers (s : Waiting) (t : State) : Label → Pid → Bool
  | .crash => fun _ => false
  | .beginOp p => update s.asleep p (t.proc p = .asleep)
  | l => if s.log.wakes l then fun _ => false else s.asleep

def Waiting.step (g : Geometry) : WaitLabel → Waiting → Option Waiting
  | .op l, s =>
    if l.begins.any s.asleep then none
    else (Log.step g l s.log).map fun t => ⟨t, s.sleepers t l⟩
  | .kill p, s => some { s with asleep := update s.asleep p false }

def Waiting.boot (d : Disk) : Waiting := ⟨State.boot d [] [], fun _ => false⟩

def State.MustWait (s : State) : Prop :=
  s.committing = true ∨ (s.lh.length : Int) + (s.outstanding + 1) * maxOpBlocks > logSize

variable {g : Geometry} {s s' : State} {l : Label}

theorem beginOp_mustWait (h : beginOp s p = some s') (sleeps : s'.proc p = .asleep) :
    s'.MustWait := by
  have body (h : (if s.committing then some (s.setProc p .asleep)
      else if (s.lh.length : Int) + (s.outstanding + 1) * maxOpBlocks > logSize then
        some (s.setProc p .asleep)
      else some { s.setProc p .inOp with
        outstanding := s.outstanding + 1
        opened := update s.opened p s.durable.length
        wrote := update s.wrote p [] }) = some s') : s'.MustWait := by
    split at h
    next busy => cases h; exact .inl busy
    next =>
      split at h
      next full => cases h; exact .inr full
      next =>
        cases h
        rw [show (State.setProc s p .inOp).proc p = .inOp from update_self ..] at sleeps
        cases sleeps
  unfold beginOp at h
  split at h
  · exact body h
  · exact body h
  · cases h

theorem endOp_wakes (h : endOp s p = some s') (quiet : s.wakes (.endOp p) = false) :
    s'.committing = true := by
  unfold endOp at h
  split at h
  · dsimp only at h
    split at h
    next busy => cases h; exact busy
    next free =>
      split at h
      · cases h
        rfl
      next more =>
        have wakes : s.wakes (.endOp p) = true :=
          decide_eq_true ⟨Bool.eq_false_iff.mpr free, more⟩
        rw [quiet] at wakes
        cases wakes
  · cases h

/-- A step that wakes nobody leaves a process that has to wait waiting. -/
theorem mustWait_step (protocol : Protocol s) (up : s.mode = .up) (restart : l ≠ .crash)
    (hs : step g l s = some s') (quiet : s.wakes l = false) (h : s.MustWait) : s'.MustWait := by
  have committing : ∀ {p c}, s.proc p = .commit c → s.committing = true :=
    fun at_ => protocol.committer _ _ at_
  cases (step_effect hs).1 with
  | crash => exact (restart rfl).elim
  | enter _ at_ free room =>
    rcases h with busy | full
    · rw [free] at busy
      cases busy
    · right
      omega
  | @log p b data _ at_ room some_ =>
    refine h.imp_right fun full => ?_
    have longer : s.lh.length ≤ (if b ∈ s.lh then s.lh else s.lh ++ [b]).length := by
      split
      · exact le_rfl
      · rw [List.length_append]
        exact Nat.le_add_right _ _
    show (((if b ∈ s.lh then s.lh else s.lh ++ [b]).length : Nat) : Int) +
      (s.outstanding + 1) * maxOpBlocks > logSize
    omega
  | endPanic _ at_ busy => exact .inl busy
  | endLast _ at_ free last => exact .inl rfl
  | endOther _ at_ free =>
    obtain ⟨-, hs⟩ := Option.ite_none_right_eq_some.mp hs
    exact .inl (endOp_wakes hs quiet)
  | clear _ at_ => exact .inl (committing at_)
  | done _ at_ =>
    rw [State.wakes, at_] at quiet
    cases quiet
  | recRead mode | recInstall mode get | recInstallEnd mode get | recClear mode =>
    rw [mode] at up
    cases up
  | _ => exact h

theorem asleep_step (restart : l ≠ .crash) (other : l.begins ≠ some q) (hs : step g l s = some s')
    (at_ : s.proc q = .asleep) : s'.proc q = .asleep := by
  have stay : ∀ {p pc} {t : State}, s.proc p ≠ .asleep → t.proc = (s.setProc p pc).proc →
      t.proc q = .asleep := by
    intro p pc t notAsleep same
    rw [same]
    refine (update_of_ne ?_ ..).trans at_
    rintro rfl
    exact notAsleep at_
  cases (step_effect hs).1 with
  | crash => exact (restart rfl).elim
  | @sleep p _ _ | @enter p _ _ _ _ =>
    refine (update_of_ne ?_ ..).trans at_
    rintro rfl
    exact other rfl
  | endLast _ mine | endOther _ mine | testSome _ mine | testNone _ mine | writeLog _ mine
  | writeLogEnd _ mine | writeHead _ mine | install _ mine | installEnd _ mine | clear _ mine
  | clearHead _ mine | done _ mine => exact stay (by rw [mine]; nofun) rfl
  | _ => exact at_

/-- Whoever sleeps on `&log` is in the loop of `begin_op` and has to wait. -/
structure Waiting.Inv (s : Waiting) : Prop where
  protocol : Protocol s.log
  asleep : Monitor.Justified s.asleep fun p => s.log.proc p = .asleep ∧ s.log.MustWait

theorem Waiting.Inv.step {s s' : Waiting} {l : WaitLabel} (h : Inv s)
    (hs : Waiting.step g l s = some s') : Inv s' := by
  cases l with
  | kill p =>
    cases hs
    exact ⟨h.protocol, h.asleep.wake p⟩
  | op l =>
    obtain ⟨awake, hs⟩ := Option.ite_none_left_eq_some.mp hs
    obtain ⟨t, ht, rfl⟩ := Option.map_eq_some_iff.mp hs
    refine ⟨h.protocol.effect (step_effect ht).1, fun q sleeps => ?_⟩
    -- a sleeper of before that this step neither wakes nor takes through the loop
    have still : s.asleep q = true → l ≠ .crash → l.begins ≠ some q → s.log.wakes l = false →
        t.proc q = .asleep ∧ t.MustWait := by
      intro before restart other quiet
      obtain ⟨at_, wait⟩ := h.asleep q before
      have up : s.log.mode = .up := by
        by_contra down
        rw [h.protocol.down down q] at at_
        cases at_
      exact ⟨asleep_step restart other ht at_, mustWait_step h.protocol up restart ht quiet wait⟩
    cases l with
    | crash => cases sleeps
    | beginOp p =>
      replace sleeps : update s.asleep p (decide (t.proc p = .asleep)) q = true := sleeps
      by_cases same : q = p
      · rw [same, update_self] at sleeps
        have asleep : t.proc p = .asleep := of_decide_eq_true sleeps
        obtain ⟨-, ht⟩ := Option.ite_none_right_eq_some.mp ht
        rw [same]
        exact ⟨asleep, beginOp_mustWait ht asleep⟩
      · rw [update_of_ne same] at sleeps
        exact still sleeps nofun (fun eq => same (Option.some.inj eq).symm) rfl
    | logWrite | recover => exact still sleeps nofun nofun rfl
    | endOp p =>
      replace sleeps : (if s.log.wakes (.endOp p) then fun _ => false else s.asleep) q = true :=
        sleeps
      split at sleeps
      · cases sleeps
      next quiet => exact still sleeps nofun nofun (Bool.eq_false_iff.mpr quiet)
    | commit p =>
      replace sleeps : (if s.log.wakes (.commit p) then fun _ => false else s.asleep) q = true :=
        sleeps
      split at sleeps
      · cases sleeps
      next quiet => exact still sleeps nofun nofun (Bool.eq_false_iff.mpr quiet)

theorem Waiting.Inv.reach {s : Waiting}
    (run : Transition.Reach (Waiting.step g) (fun _ _ => True) (Waiting.boot d) s) : Inv s :=
  run.invariant (I := Inv) ⟨.boot d [] [], nofun⟩ fun _ _ _ h _ => h.step

end Xv6.Log
