import Xv6.Kernel.Effects

/-! How a process comes to sleep in one of the loops: by a pass that finds it not killed and by the
switch in `sleep`. -/

namespace Xv6.Kernel

variable {n : Nat}

namespace Pc

/-- In one of the loops, between the test of `killed` and the switch in `sleep`. -/
def aboutToSleep : Pc n → Bool
  | tested _ => true
  | _ => false

/-- Switched out in the `sleep` of one of the loops. -/
def inLoopSleep : Pc n → Bool
  | asleep _ => true
  | _ => false

end Pc

namespace State

variable {s s' : State n} {l : Label n} {p q : Fin n}

/-- The process `q` stays where it is and does not fall asleep, or goes to a place outside the
sleeps of the loops. -/
def Idle (s s' : State n) (q : Fin n) : Prop :=
  (s'.pc q = s.pc q ∧ ((s'.proc q).state = .sleeping → (s.proc q).state = .sleeping)) ∨
  ((s'.pc q).aboutToSleep = false ∧ (s'.pc q).inLoopSleep = false)

namespace Idle

theorem other (pc : s'.pc q = s.pc q) (entry : s'.proc q = s.proc q) : Idle s s' q :=
  .inl ⟨pc, by rw [entry]; exact id⟩

theorem setPc {pc : Pc n} (h : Idle s s' q) (out : pc.aboutToSleep = false)
    (awake : pc.inLoopSleep = false) : Idle s (s'.setPc p pc) q := by
  by_cases hq : q = p
  · subst hq
    exact .inr (by simp [out, awake])
  · unfold Idle
    rwa [setPc_of_ne _ _ hq]

theorem setHolder (h : Idle s s' q) : Idle s (s'.setHolder lk o) q := h

theorem set (pc : s'.pc = s.pc) (entry : s'.proc q = if q = p then v else s.proc q)
    (sleep : v.state ≠ .sleeping) : Idle s s' q := by
  by_cases hq : q = p
  · rw [if_pos hq] at entry
    exact .inl ⟨by rw [pc], by rw [entry]; exact fun hs => (sleep hs).elim⟩
  · exact .other (by rw [pc]) (by rw [entry, if_neg hq])

theorem moved (pc : s'.pc = s.pc) (table : s.table.Moved s'.table) : Idle s s' q := by
  refine .inl ⟨by rw [pc], fun hs => ?_⟩
  rcases table.state (q := q) with hst | hst
  · exact hst.symm.trans hs
  · exact hst.1

theorem fork (mem copy : Bool) : Idle s (s.fork p mem copy) q := by
  unfold State.fork
  rcases s.table.allocproc_cases mem with hc | ⟨np, hf, hc⟩
  · rw [hc]
    exact setPc (.other rfl rfl) rfl rfl
  have freed : Idle s ({ s with table := (s.table.take np).freeproc np } : State n) q := by
    refine set (p := np) (v := {}) rfl ?_ nofun
    rw [proc, Table.freeproc_proc, Table.take_proc]
    split <;> rfl
  rcases hc with hc | hc <;> simp only [hc]
  · exact freed.setPc rfl rfl
  split
  · refine setPc (setPc ?_ rfl rfl) rfl rfl
    exact set (p := np) rfl Table.take_proc nofun
  · exact freed.setPc rfl rfl

theorem threadCreate (args mem : Bool) : Idle s (s.threadCreate p args mem) q := by
  unfold State.threadCreate
  split
  · rcases s.table.allocthread_cases p mem with hc | ⟨np, hf, hc | hc⟩ <;> simp only [hc]
    · exact setPc (.other rfl rfl) rfl rfl
    · refine setPc ?_ rfl rfl
      refine set (p := np) (v := {}) rfl ?_ nofun
      rw [proc, Table.freeproc_proc, Table.takeThread_proc]
      split <;> rfl
    · refine setPc (setPc ?_ rfl rfl) rfl rfl
      refine set (p := np) (v := { s.table.newThread p np with state := .runnable }) rfl ?_ nofun
      rw [proc, Table.set_proc, Table.set_self, Table.set_proc, Table.takeThread_proc]
      split <;> rfl
  · exact setPc (.other rfl rfl) rfl rfl

theorem threadJoin (retval : Bool) (io : Copies) : Idle s (s.threadJoin p retval io) q := by
  unfold State.threadJoin
  repeat' split
  · exact setPc (.other rfl rfl) rfl rfl
  · exact setPc (.other rfl rfl) rfl rfl
  next pp _ _ =>
    refine setPc ?_ rfl rfl
    exact set (p := pp) rfl Table.freeproc_proc nofun

theorem exit (status : UInt32) : Idle s (s.exit p status) q := by
  by_cases hq : q = p
  · subst hq
    exact .inl ⟨rfl, by simp [State.exit, proc, Table.exit_eq]⟩
  · refine .inl ⟨rfl, fun hs => ?_⟩
    have same : (s.exit p status).proc q = (s.table.handOver p).proc q := Table.set_of_ne hq
    rw [same] at hs
    rcases (Table.Moved.handOver s.table p).state (q := q) with hst | hst
    · exact hst.symm.trans hs
    · exact hst.1

theorem kill (pid : UInt32) : Idle s ({ s with table := (s.table.kill pid).2 } : State n) q := by
  rcases s.table.kill_cases pid with ⟨hc, -⟩ | ⟨r, -, hc⟩ <;> rw [hc]
  · exact .other rfl rfl
  · refine set (p := r) rfl Table.set_proc ?_
    unfold Proc.kill
    split
    · nofun
    · assumption

theorem setkilled : Idle s ({ s with table := s.table.setkilled p } : State n) q := by
  by_cases hq : q = p
  · subst hq
    exact .inl ⟨rfl, by simp [proc, Table.setkilled]⟩
  · exact .other rfl (Table.set_of_ne hq)

theorem consoleintr (c : UInt8) (cur : Option (Fin n)) : Idle s (s.consoleintr c cur) q := by
  unfold State.consoleintr
  repeat' split
  all_goals first
    | exact .other rfl rfl
    | exact .moved rfl (.wakeup _ _ _)
    | exact .setkilled

theorem pick : Idle s (s.pick p) q := by
  unfold State.pick
  split
  · refine setPc ?_ rfl rfl
    exact set (p := p) rfl Table.set_proc nofun
  · refine setPc ?_ rfl rfl
    exact set (p := p) rfl Table.set_proc nofun
  · exact set (p := p) rfl Table.set_proc nofun

theorem block (a : Nat) (r : Ret) : Idle s ((s.sleep p (.other a)).setPc p (.blocked r)) q := by
  by_cases hq : q = p
  · subst hq
    exact .inr (by simp [Pc.aboutToSleep, Pc.inLoopSleep])
  · exact .other (setPc_of_ne _ _ hq) (Table.set_of_ne hq)

theorem pass (frame : PassFrame s p c s' next) : Idle s s' q := by
  rcases frame.table with ⟨-, ht | ⟨chan, ht⟩⟩ | ⟨pp, -, -, rfl, -⟩
  · exact .other (by rw [frame.pc]) (by rw [proc, ht]; rfl)
  · exact .moved frame.pc (ht ▸ .wakeup _ _ _)
  · exact set (p := pp) frame.pc Table.freeproc_proc nofun

end Idle

/-- What a step does to the place of the process `q`. -/
inductive Went (s : State n) (l : Label n) (s' : State n) (q : Fin n) : Prop
  | idle (h : Idle s s' q)
  | tests {io c s₁} (label : l = .pass q io) (at_ : s.pc q = .loop c)
      (eq : s.pass q io c = (s₁, .sleep c)) (after : s' = s₁.setPc q (.tested c))
  | sleeps {c} (label : l = .sleep q) (at_ : s.pc q = .tested c) (after : s'.pc q = .asleep c)

end State

open State

theorem Step.went (st : Step s l s') (q : Fin n) : Went s l s' q := by
  cases st with
  | fork free => exact .idle (.fork _ _)
  | @forkParent p np pid at_ run lock =>
    refine .idle (Idle.setPc ?_ rfl rfl)
    exact .moved rfl (.setParent _ _ _)
  | @forkRun p np pid at_ run =>
    refine .idle (Idle.setPc ?_ rfl rfl)
    exact Idle.set (p := np) rfl Table.set_proc nofun
  | exit free init lock => exact .idle (.exit _)
  | kill free => exact .idle (Idle.setPc (.kill _) rfl rfl)
  | setkilled free => exact .idle .setkilled
  | call | joined => exact .idle (Idle.setPc (.other rfl rfl) rfl rfl)
  | acquire at_ run lock => exact .idle (Idle.setHolder (Idle.setPc (.other rfl rfl) rfl rfl))
  | @pass p io c s1 next at_ run eq =>
    have frame := pass_frame eq
    have idle : Idle s s1 q := .pass frame
    cases next with
    | again c' => exact .idle (idle.setPc rfl rfl)
    | ret r => exact .idle (idle.setPc rfl rfl).setHolder
    | sleep c' =>
      obtain rfl := (frame.sleep c' rfl).1
      by_cases hq : q = p
      · subst hq
        exact .tests rfl at_ eq rfl
      · refine .idle ?_
        unfold Idle goOn
        rwa [setPc_of_ne _ _ hq]
  | @sleep p c at_ run =>
    by_cases hq : q = p
    · subst hq
      exact .sleeps rfl at_ (setPc_self ..)
    · exact .idle (.other (setPc_of_ne _ _ hq) (Table.set_of_ne hq))
  | block at_ run => exact .idle (.block _ _)
  | wake | clockintr => exact .idle (.moved rfl (.wakeup _ _ _))
  | pick run => exact .idle .pick
  | @yield p run => exact .idle (.set (p := p) rfl Table.set_proc nofun)
  | consoleintr lock run => exact .idle (.consoleintr _ _)
  | pipealloc read write idle => exact .idle (.other rfl rfl)
  | pipeclose lock idle =>
    unfold State.pipeclose
    split <;> exact .idle (.moved rfl (.wakeup _ _ _))
  | threadCreate free => exact .idle (.threadCreate _ _)
  | threadJoin free => exact .idle (.threadJoin _ _)

end Xv6.Kernel
