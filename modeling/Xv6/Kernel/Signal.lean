import Xv6.Kernel.System

/-! Signals: `sys_signal`, the test of `usertrap`, and Ctrl-C in the console interrupt, which calls
the user's handler from the kernel. -/

namespace Xv6.Signal

open Transition Kernel Function

variable {n : Nat} {s : State n}

abbrev sigint : Fin 32 := 2

/-- The mode that the processor is in when control gets to a handler. -/
inductive Mode
  | user
  | supervisor
  deriving DecidableEq, Repr

/-- A transfer of control to an address from `sig_handlers`. -/
structure Jump where
  mode : Mode
  target : UInt64
  deriving DecidableEq, Repr

/-- The kernel with the fields of `struct proc` that signals use. The last two fields record the
handlers that `sys_signal` was given, and the transfers of control to handlers. -/
structure State (n : Nat) where
  kernel : Kernel.State n
  sigHandlers : Fin n → Fin 32 → UInt64
  pendingSignals : Fin n → UInt32
  epc : Fin n → UInt64
  supplied : List UInt64
  jumps : List Jump

namespace State

variable (s : State n)

def setHandler (p : Fin n) (i : Fin 32) (handler : UInt64) : State n :=
  { s with
    sigHandlers :=
      update s.sigHandlers p (update (s.sigHandlers p) i handler) }

def setEpc (p : Fin n) (epc : UInt64) : State n := { s with epc := update s.epc p epc }

def ret (p : Fin n) (r : Ret) : State n := { s with kernel := s.kernel.setPc p (.user r) }

/-- `sys_signal`. -/
def signal (p : Fin n) (signum : UInt32) (handler : UInt64) : State n :=
  if signum ≠ UInt32.ofNat sigint then s.ret p .fail
  else ({ s with supplied := s.supplied ++ [handler] }.setHandler p sigint handler).ret p (.val 0)

/-- `handle_signals`. -/
def handleSignals (p : Fin n) : State n :=
  let bit : UInt32 := 1 <<< UInt32.ofNat sigint
  if s.pendingSignals p &&& bit ≠ 0 then
    let s := { s with
      pendingSignals := update s.pendingSignals p (s.pendingSignals p &&& ~~~bit) }
    if s.sigHandlers p sigint ≠ 0 then
      { s.setEpc p (s.sigHandlers p sigint) with
        jumps := s.jumps ++ [⟨.user, s.sigHandlers p sigint⟩] }
    else { s with kernel := { s.kernel with table := s.kernel.table.setkilled p } }
  else s

/-- `usertrap` in `p` for a system call, up to `syscall()`; a killed process exits instead. -/
def usertrap (p : Fin n) (sepc : UInt64) : State n :=
  let s := (s.setEpc p sepc).handleSignals p
  if s.kernel.killed p then s else s.setEpc p (s.epc p + 4)

/-- The handlers that a step calls in the kernel: that of the current process at Ctrl-C.
`sigint_default_handler` sets `killed` as `consoleintr` does next. -/
def calls : Label n → List Jump
  | .consoleintr c (some p) =>
    if c = Console.ctrlC ∧ s.sigHandlers p sigint ≠ 0 then
      [⟨.supervisor, s.sigHandlers p sigint⟩]
    else []
  | _ => []

end State

/-- The steps: those of the kernel, `sys_signal`, and the start of a system call. -/
inductive Label (n : Nat)
  | kernel (l : Kernel.Label n)
  | signal (p : Fin n) (signum : UInt32) (handler : UInt64)
  | ecall (p : Fin n) (sepc : UInt64)

def step : Label n → State n → Option (State n)
  | .kernel l, s =>
    (Kernel.step l s.kernel).map fun k => { s with kernel := k, jumps := s.jumps ++ s.calls l }
  | .signal p signum handler, s =>
    if s.kernel.Free p then some (s.signal p signum handler) else none
  | .ecall p sepc, s => if s.kernel.Free p then some (s.usertrap p sepc) else none

def boot (n : Nat) [NeZero n] : State n where
  kernel := Kernel.boot n
  sigHandlers := fun _ _ => 0
  pendingSignals := fun _ => 0
  epc := fun _ => 0
  supplied := []
  jumps := []

/-- Ctrl-C comes only when the current process, if there is one, has no handler. -/
def UnhandledCtrlC (s : State n) : Label n → Prop
  | .kernel (.consoleintr c cur) =>
    c = Console.ctrlC → ∀ p ∈ cur, s.sigHandlers p sigint = 0
  | _ => True

instance : DecidableRel (UnhandledCtrlC (n := n)) := fun s l => by
  rcases l with l | _ | _
  · apply Kernel.Label.casesOn (motive := fun l => Decidable (UnhandledCtrlC s (.kernel l))) l <;>
      intros <;> dsimp only [UnhandledCtrlC] <;> infer_instance
  all_goals exact .isTrue trivial

/-- Every handler in the table came from a process, and so did every handler that control was given
to. -/
structure Supplied (s : State n) : Prop where
  handlers : ∀ p i, s.sigHandlers p i ≠ 0 → s.sigHandlers p i ∈ s.supplied
  jumps : ∀ j ∈ s.jumps, j.target ∈ s.supplied

namespace Supplied

variable {s s' : State n} {p : Fin n}

theorem same (h : Supplied s) (handlers : s'.sigHandlers = s.sigHandlers)
    (supplied : s'.supplied = s.supplied)
    (jumps : ∀ j ∈ s'.jumps, j ∈ s.jumps ∨ ∃ p i, j.target = s.sigHandlers p i ∧ j.target ≠ 0) :
    Supplied s' where
  handlers p i hi := by
    rw [handlers] at hi ⊢
    rw [supplied]
    exact h.handlers p i hi
  jumps j hj := by
    rw [supplied]
    rcases jumps j hj with before | ⟨p, i, target, nonzero⟩
    · exact h.jumps j before
    · rw [target] at nonzero ⊢
      exact h.handlers p i nonzero

theorem signal (h : Supplied s) (signum : UInt32) (handler : UInt64) :
    Supplied (s.signal p signum handler) := by
  unfold State.signal
  split
  · exact h.same rfl rfl fun j hj => .inl hj
  · have old := fun q i hi => List.mem_append_left [handler] (h.handlers q i hi)
    refine ⟨?_, fun j hj => List.mem_append_left _ (h.jumps j hj)⟩
    refine (forall_update_iff s.sigHandlers fun _ v => ∀ i, v i ≠ 0 →
      v i ∈ s.supplied ++ [handler]).mpr ⟨?_, fun q _ => old q⟩
    refine (forall_update_iff (s.sigHandlers p) fun _ v => v ≠ 0 →
      v ∈ s.supplied ++ [handler]).mpr ⟨fun _ => ?_, fun i _ => old p i⟩
    exact List.mem_append_right _ (List.mem_singleton_self handler)

end Supplied

theorem usertrap_cases (s : State n) (p : Fin n) (sepc : UInt64) :
    (s.usertrap p sepc).sigHandlers = s.sigHandlers ∧
    (s.usertrap p sepc).supplied = s.supplied ∧
    ∀ j ∈ (s.usertrap p sepc).jumps,
      j ∈ s.jumps ∨ j = ⟨.user, s.sigHandlers p sigint⟩ ∧ s.sigHandlers p sigint ≠ 0 := by
  have jumps : (s.usertrap p sepc).jumps = ((s.setEpc p sepc).handleSignals p).jumps ∧
      (s.usertrap p sepc).sigHandlers = ((s.setEpc p sepc).handleSignals p).sigHandlers ∧
      (s.usertrap p sepc).supplied = ((s.setEpc p sepc).handleSignals p).supplied := by
    unfold State.usertrap
    dsimp only
    split <;> exact ⟨rfl, rfl, rfl⟩
  rw [jumps.1, jumps.2.1, jumps.2.2]
  unfold State.handleSignals
  dsimp only
  split
  · split
    next nonzero =>
      refine ⟨rfl, rfl, fun j hj => ?_⟩
      rcases List.mem_append.mp hj with before | now
      · exact .inl before
      · exact .inr ⟨List.mem_singleton.mp now, nonzero⟩
    next => exact ⟨rfl, rfl, fun j hj => .inl hj⟩
  · exact ⟨rfl, rfl, fun j hj => .inl hj⟩

theorem mem_calls (h : j ∈ s.calls l) :
    ∃ p, l = .consoleintr Console.ctrlC (some p) ∧ s.sigHandlers p sigint ≠ 0 ∧
      j = ⟨.supervisor, s.sigHandlers p sigint⟩ := by
  cases l with
  | consoleintr c cur =>
    cases cur with
    | none => cases h
    | some p =>
      rw [State.calls] at h
      split at h
      next ctrlC =>
        obtain ⟨rfl, nonzero⟩ := ctrlC
        exact ⟨p, rfl, nonzero, List.mem_singleton.mp h⟩
      next => cases h
  | _ => cases h

theorem Supplied.step (h : Supplied s) (hstep : Signal.step l s = some s') : Supplied s' := by
  cases l with
  | kernel l =>
    obtain ⟨k, -, rfl⟩ := Option.map_eq_some_iff.mp hstep
    refine h.same rfl rfl fun j hj => ?_
    rcases List.mem_append.mp hj with before | now
    · exact .inl before
    · obtain ⟨p, -, nonzero, rfl⟩ := mem_calls now
      exact .inr ⟨p, sigint, rfl, nonzero⟩
  | signal p signum handler =>
    obtain ⟨-, rfl⟩ := guarded hstep
    exact h.signal signum handler
  | ecall p sepc =>
    obtain ⟨-, rfl⟩ := guarded hstep
    obtain ⟨handlers, supplied, jumps⟩ := usertrap_cases s p sepc
    refine h.same handlers supplied fun j hj => ?_
    rcases jumps j hj with before | ⟨rfl, nonzero⟩
    · exact .inl before
    · exact .inr ⟨p, sigint, rfl, nonzero⟩

theorem user_step (h : ∀ j ∈ s.jumps, j.mode = .user) (ok : UnhandledCtrlC s l)
    (hstep : step l s = some s') : ∀ j ∈ s'.jumps, j.mode = .user := by
  intro j hj
  cases l with
  | kernel l =>
    obtain ⟨k, -, rfl⟩ := Option.map_eq_some_iff.mp hstep
    rcases List.mem_append.mp hj with before | now
    · exact h j before
    · obtain ⟨p, rfl, nonzero, -⟩ := mem_calls now
      exact (nonzero (ok rfl p rfl)).elim
  | signal p signum handler =>
    obtain ⟨-, rfl⟩ := guarded hstep
    have same : (s.signal p signum handler).jumps = s.jumps := by
      unfold State.signal
      split <;> rfl
    rw [same] at hj
    exact h j hj
  | ecall p sepc =>
    obtain ⟨-, rfl⟩ := guarded hstep
    rcases (usertrap_cases s p sepc).2.2 j hj with before | ⟨rfl, -⟩
    · exact h j before
    · rfl

/-- If Ctrl-C comes only when the current process has no handler, the kernel calls no address that a
process supplied: a handler only ever gets control in user mode. -/
theorem handlers_run_in_user_mode [NeZero n] {s : State n}
    (run : Reach step UnhandledCtrlC (boot n) s) :
    (∀ p i, s.sigHandlers p i ≠ 0 → s.sigHandlers p i ∈ s.supplied) ∧
    ∀ j ∈ s.jumps, j.target ∈ s.supplied ∧ j.mode = .user := by
  have supplied : Supplied s :=
    run.invariant (I := Supplied) ⟨fun _ _ h => (h rfl).elim, nofun⟩ fun _ _ _ h _ => h.step
  have user := run.invariant (I := fun s : State n => ∀ j ∈ s.jumps, j.mode = .user) nofun
    fun _ _ _ => user_step
  exact ⟨supplied.handlers, fun j hj => ⟨supplied.jumps j hj, user j hj⟩⟩

def installsHandler : List (Label nproc) :=
  [.kernel (.pick 0), .ecall 0 0x100, .signal 0 2 0x1000]

theorem handlers_run_in_user_mode_installed : ∃ s : State nproc,
    Reach step UnhandledCtrlC (boot nproc) s ∧ s.sigHandlers 0 sigint = 0x1000 ∧
    ∀ j ∈ s.jumps, j.mode = .user := by
  obtain ⟨s, reach, handler⟩ := exists_reach step UnhandledCtrlC (boot nproc)
    (installsHandler ++ [.kernel (.consoleintr Console.ctrlC none)])
    (P := fun s : State nproc => s.sigHandlers 0 sigint = 0x1000) (by decide +kernel)
  exact ⟨s, reach, handler, fun j hj => ((handlers_run_in_user_mode reach).2 j hj).2⟩

/-- Ctrl-C while `init` runs: the kernel calls the address that it passed to `signal`. -/
theorem ctrlC_calls_handler : ∃ s : State nproc, Reach step (fun _ _ => True) (boot nproc) s ∧
    ⟨.supervisor, 0x1000⟩ ∈ s.jumps ∧ 0x1000 ∈ s.supplied :=
  exists_reach step (fun _ _ => True) (boot nproc)
    (installsHandler ++ [.kernel (.consoleintr Console.ctrlC (some 0))])
    (P := fun s : State nproc => ⟨.supervisor, 0x1000⟩ ∈ s.jumps ∧ 0x1000 ∈ s.supplied)
    (by decide +kernel)

/-- How `usertrap` ends for a system call. -/
inductive Trap (n : Nat)
  | exit (status : Int) (s : State n)
  | usertrapret (s : State n)

/-- `usertrap` for the system call `sys`. -/
def State.trap (s : State n) (sys : State n → State n) (p : Fin n) (sepc : UInt64) : Trap n :=
  let t := s.usertrap p sepc
  if t.kernel.killed p then .exit (-1) t
  else if (sys t).kernel.killed p then .exit (-1) (sys t)
  else .usertrapret (sys t)

section

variable {s : State n} {p : Fin n} (pending : s.pendingSignals p &&& sigintBit ≠ 0) (sepc : UInt64)

include pending

end

end Xv6.Signal
