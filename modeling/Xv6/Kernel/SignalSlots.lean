import Xv6.Kernel.Effects
import Xv6.Kernel.Signal

/-! Whether the signal state of a program reaches the next one. `procinit` clears the handlers once;
`freeproc`, `allocproc`, `allocthread` and `exec` leave them alone. -/

namespace Xv6.Kernel

variable {n : Nat}

def ProcState.gone : ProcState → Bool
  | unused | zombie => true
  | _ => false

theorem ProcState.alive_of_gone {st : ProcState} (h : st.gone = true) : st.alive = false := by
  cases st <;> first | rfl | cases h

/-- Only `exit` ends a process: `freeproc` is called for an entry that is a zombie, or that was
free at the start of the step. -/
theorem Step.gone {q : Fin n} (st : Step s l s') (h : (s'.proc q).state.gone = true) :
    (s.proc q).state.gone = true ∨ ∃ status, l = .exit q status := by
  -- a table that differs from the one before only at `np`, which was gone
  have only : ∀ (np : Fin n) {t : Table n}, (s.proc np).state.gone = true →
      (∀ r, r ≠ np → t.proc r = s.table.proc r) → (t.proc q).state.gone = true →
      (s.proc q).state.gone = true := by
    intro np t dead same ht
    by_cases hq : q = np
    · rwa [hq]
    · rwa [same q hq] at ht
  have unused : ∀ np, s.table.findUnused = some np → (s.proc np).state.gone = true := by
    intro np hf
    rw [show (s.proc np).state = .unused from Table.findUnused_some hf]
    rfl
  rcases st.calm_or_loud with calm | loud
  · rcases calm.table.state q with same | ⟨-, alive⟩
    · rw [show (s'.proc q).state = (s.proc q).state from same] at h
      exact .inl h
    · rw [show (s'.table.proc q).state.alive = false from ProcState.alive_of_gone h] at alive
      cases alive
  cases loud with
  | fork free =>
    left
    change ((s.fork _ _ _).table.proc q).state.gone = true at h
    rcases s.fork_table _ _ _ with ht | ⟨np, hf, ht | ht⟩ <;> rw [ht] at h
    · exact h
    · refine only np (unused np hf) (fun r hr => ?_) h
      rw [Table.freeproc_proc, if_neg hr, Table.take_proc, if_neg hr]
    · refine only np (unused np hf) (fun r hr => ?_) h
      rw [Table.take_proc, if_neg hr]
  | @forkParent p np pid at_ run lock =>
    left
    change ((s.table.set np _).proc q).state.gone = true at h
    rw [Table.set_proc] at h
    split at h
    next hq => rwa [hq]
    next => exact h
  | @forkRun p np pid at_ run =>
    left
    change ((s.table.set np _).proc q).state.gone = true at h
    rw [Table.set_proc] at h
    split at h
    · cases h
    · exact h
  | @exit p status free init lock =>
    by_cases hq : q = p
    · exact .inr ⟨status, by rw [hq]⟩
    · left
      have same := (Table.exit_dead (t := s.table) (p := p) hq
        (ProcState.alive_of_gone h)).mp rfl
      rwa [show (s.proc q).state = _ from same]
  | @reap p io c pp at_ run wait found =>
    left
    change ((State.goOn _ _ _ _).table.proc q).state.gone = true at h
    rw [State.goOn_table] at h
    have zombie : (s.proc pp).state = .zombie := (Table.findZombie_some found).2
    refine only pp (by rw [zombie]; rfl) (fun r hr => ?_) h
    exact Table.set_of_ne hr
  | threadCreate free =>
    left
    change ((s.threadCreate _ _ _).table.proc q).state.gone = true at h
    rcases s.threadCreate_table _ _ _ with ht | ⟨np, hf, ht | ht⟩ <;> rw [ht] at h
    · exact h
    · refine only np (unused np hf) (fun r hr => ?_) h
      rw [Table.freeproc_proc, if_neg hr, Table.takeThread_proc, if_neg hr]
    · refine only np (unused np hf) (fun r hr => ?_) h
      rw [Table.set_of_ne hr, Table.takeThread_proc, if_neg hr]
  | @threadJoin p retval io free =>
    left
    unfold State.threadJoin at h
    split at h
    · exact h
    next pp found =>
      split at h
      · exact h
      · have zombie : (s.proc pp).state = .zombie := (Table.findThread_some found).2
        exact only pp (by rw [zombie]; rfl) (fun r hr => Table.set_of_ne hr) h

end Xv6.Kernel

namespace Xv6.Signal

open Transition Kernel Function

variable {n : Nat}

/-- The steps of the signal system and `exec`, with the entry point and `argc` of the image, or
`none` if it fails. -/
inductive Action (n : Nat)
  | step (l : Label n)
  | exec (p : Fin n) (image : Option (UInt64 × UInt32))

/-- `exec` in `p`, as far as signals go: it sets `epc` and keeps every other field they use. -/
def State.exec (s : State n) (p : Fin n) : Option (UInt64 × UInt32) → State n
  | none => s.ret p .fail
  | some (entry, argc) => (s.setEpc p entry).ret p (.val argc)

def act : Action n → State n → Option (State n)
  | .step l, s => Signal.step l s
  | .exec p image, s => if s.kernel.Free p then some (s.exec p image) else none

def Action.ends : Action n → Option (Fin n)
  | .step (.kernel (.exit p _)) => some p
  | .exec p (some _) => some p
  | _ => none

/-- A process exits, and commits to another image, only when it has no handler. -/
def EndsUnhandled (s : State n) (a : Action n) : Prop := ∀ p ∈ a.ends, s.sigHandlers p sigint = 0

instance : DecidableRel (EndsUnhandled (n := n)) := fun _ _ =>
  inferInstanceAs (Decidable (∀ _ ∈ _, _))

/-- Only `SIGINT` has handlers, no signal is ever pending, and an entry that is free or has exited
has no handler. -/
structure Clean (s : State n) : Prop where
  only : ∀ p i, i ≠ sigint → s.sigHandlers p i = 0
  pending : ∀ p, s.pendingSignals p = 0
  gone : ∀ p, (s.kernel.proc p).state.gone = true → s.sigHandlers p sigint = 0

namespace Clean

variable {s s' : State n} {p : Fin n}

theorem all (h : Clean s) (none : s.sigHandlers p sigint = 0) (i : Fin 32) :
    s.sigHandlers p i = 0 := by
  by_cases hi : i = sigint
  · rwa [hi]
  · exact h.only p i hi

theorem same (h : Clean s) (handlers : s'.sigHandlers = s.sigHandlers)
    (pending : s'.pendingSignals = s.pendingSignals)
    (gone : ∀ p, (s'.kernel.proc p).state.gone = true →
      (s.kernel.proc p).state.gone = true ∨ s.sigHandlers p sigint = 0) : Clean s' where
  only := by rw [handlers]; exact h.only
  pending := by rw [pending]; exact h.pending
  gone p hp := by
    rw [handlers]
    rcases gone p hp with before | none
    · exact h.gone p before
    · exact none

theorem signal (h : Clean s) (run : (s.kernel.proc p).state = .running) (signum : UInt32)
    (handler : UInt64) : Clean (s.signal p signum handler) := by
  unfold State.signal
  split
  · exact h.same rfl rfl fun _ gone => .inl gone
  · refine ⟨fun q i hi => ?_, h.pending, fun q gone => ?_⟩
    · show update s.sigHandlers p _ q i = 0
      by_cases hq : q = p
      · rw [hq, update_self, update_of_ne hi]
        exact h.only p i hi
      · rw [update_of_ne hq]
        exact h.only q i hi
    · replace gone : (s.kernel.proc q).state.gone = true := gone
      show update s.sigHandlers p _ q sigint = 0
      have hq : q ≠ p := by
        rintro rfl
        rw [run] at gone
        cases gone
      rw [update_of_ne hq]
      exact h.gone q gone

theorem usertrap (h : Clean s) (sepc : UInt64) : Clean (s.usertrap p sepc) := by
  have nothing : (s.setEpc p sepc).handleSignals p = s.setEpc p sepc := by
    unfold State.handleSignals
    rw [if_neg]
    rw [show (s.setEpc p sepc).pendingSignals p = 0 from h.pending p]
    decide
  unfold State.usertrap
  dsimp only
  rw [nothing]
  split <;> exact h.same rfl rfl fun _ gone => .inl gone

theorem step (h : Clean s) (ok : EndsUnhandled s a) (hstep : act a s = some s') : Clean s' := by
  cases a with
  | step l =>
    cases l with
    | kernel l =>
      obtain ⟨k, hk, rfl⟩ := Option.map_eq_some_iff.mp hstep
      refine h.same rfl rfl fun q gone => ?_
      rcases (step_sound hk).gone gone with before | ⟨status, rfl⟩
      · exact .inl before
      · exact .inr (ok q rfl)
    | signal p signum handler =>
      obtain ⟨free, rfl⟩ := guarded hstep
      exact h.signal free.1 signum handler
    | ecall p sepc =>
      obtain ⟨-, rfl⟩ := guarded hstep
      exact h.usertrap sepc
  | exec p image =>
    obtain ⟨-, rfl⟩ := guarded hstep
    cases image <;> exact h.same rfl rfl fun _ gone => .inl gone

end Clean

/-- If a process exits, and commits to another image, only when it has no handler, what `allocproc`
or `allocthread` returns has no handler and no pending signal, and no handler is set after such an
`exec`. -/
theorem signal_state_fresh [NeZero n] {s : State n} (run : Reach act EndsUnhandled (boot n) s) :
    (∀ mem q, (s.kernel.table.allocproc mem).1 = some q →
      (∀ i, s.sigHandlers q i = 0) ∧ s.pendingSignals q = 0) ∧
    (∀ p mem q, (s.kernel.table.allocthread p mem).1 = some q →
      (∀ i, s.sigHandlers q i = 0) ∧ s.pendingSignals q = 0) ∧
    ∀ p image s', EndsUnhandled s (.exec p (some image)) → act (.exec p (some image)) s = some s' →
      ∀ i, s'.sigHandlers p i = 0 := by
  have clean : Clean s := run.invariant (I := Clean)
    ⟨fun _ _ _ => rfl, fun _ => rfl, fun _ _ => rfl⟩ fun _ _ _ h ok => h.step ok
  have free : ∀ q, s.kernel.table.findUnused = some q →
      (∀ i, s.sigHandlers q i = 0) ∧ s.pendingSignals q = 0 := by
    intro q hf
    have unused : (s.kernel.proc q).state = .unused := Table.findUnused_some hf
    exact ⟨clean.all (clean.gone q (by rw [unused]; rfl)), clean.pending q⟩
  refine ⟨fun mem q hq => ?_, fun p mem q hq => ?_, fun p image s' ok hs i => ?_⟩
  · rcases s.kernel.table.allocproc_cases mem with hc | ⟨np, hf, hc | hc⟩ <;> rw [hc] at hq <;>
      cases hq
    exact free q hf
  · rcases s.kernel.table.allocthread_cases p mem with hc | ⟨np, hf, hc | hc⟩ <;> rw [hc] at hq <;>
      cases hq
    exact free q hf
  · obtain ⟨-, rfl⟩ := guarded hs
    exact clean.all (ok p rfl) i

/-- `init` forks a child, which installs a handler. -/
def childSignals : List (Action nproc) :=
  [.step (.kernel (.pick 0)), .step (.kernel (.fork 0 true true)), .step (.kernel (.forkParent 0)),
    .step (.kernel (.forkRun 0)), .step (.kernel (.pick 1)), .step (.ecall 1 0x100),
    .step (.signal 1 2 0x1000)]

/-- The child exits and is waited for. -/
def childWaited : List (Action nproc) :=
  [.step (.kernel (.exit 1 0)), .step (.kernel (.call 0 (.wait false))),
    .step (.kernel (.acquire 0)), .step (.kernel (.pass 0 ⟨none, true⟩))]

/-- The child removes its handler again, and its entry is given out clean. -/
theorem signal_state_fresh_reused : ∃ s : State nproc, Reach act EndsUnhandled (boot nproc) s ∧
    (s.kernel.table.allocproc true).1 = some 1 ∧ s.kernel.table.issued = 2 ∧
    0x1000 ∈ s.supplied ∧ ∀ i, s.sigHandlers 1 i = 0 := by
  obtain ⟨s, reach, alloc, issued, installed⟩ := exists_reach act EndsUnhandled (boot nproc)
    (childSignals ++ [.step (.ecall 1 0x104), .step (.signal 1 2 0)] ++ childWaited)
    (P := fun s : State nproc => (s.kernel.table.allocproc true).1 = some 1 ∧
      s.kernel.table.issued = 2 ∧ 0x1000 ∈ s.supplied) (by decide +kernel)
  exact ⟨s, reach, alloc, issued, installed, ((signal_state_fresh reach).1 true 1 alloc).1⟩

/-- The child installs a handler; the next process that `allocproc` returns has it, and so has the
image of the child after `exec`. -/
theorem handler_leaks :
    (∃ s : State nproc, Reach act (fun _ _ => True) (boot nproc) s ∧
      (s.kernel.table.allocproc true).1 = some 1 ∧ s.sigHandlers 1 sigint = 0x1000) ∧
    ∃ s : State nproc, Reach act (fun _ _ => True) (boot nproc) s ∧
      (act (.exec 1 (some (0, 1))) s).any (fun s' => s'.sigHandlers 1 sigint == 0x1000) = true :=
  ⟨exists_reach act (fun _ _ => True) (boot nproc) (childSignals ++ childWaited)
    (P := fun s : State nproc => (s.kernel.table.allocproc true).1 = some 1 ∧
      s.sigHandlers 1 sigint = 0x1000) (by decide +kernel),
  exists_reach act (fun _ _ => True) (boot nproc) (childSignals)
    (P := fun s : State nproc =>
      (act (.exec 1 (some (0, 1))) s).any (fun s' => s'.sigHandlers 1 sigint == 0x1000) = true)
    (by decide +kernel)⟩

end Xv6.Signal
