import Xv6.Kernel.Kill
import Xv6.Kernel.Moves

/-! Parents and children without threads. A process is identified by its allocation, since entries
and pids are used again. -/

namespace Xv6.Kernel

open Transition Function Table

variable {n : Nat} {np : Fin n} {s s' : State n} {l : Label n}

namespace State

variable {s s' : State n} {l : Label n} {p q : Fin n}

/-- The process `by_` may wait for `child`: it forked it, or it is `initproc` and the process that
forked it has exited. -/
def Heir (s : State n) (child by_ : Nat) : Prop :=
  ∃ f, s.forker child = some f ∧
    (by_ = f ∨ by_ = s.table.birth s.table.initproc ∧ (s.exited f).isSome)

/-- What holds of parents, exit statuses and the returns of `wait` when there are no threads. -/
structure Family (s : State n) : Prop where
  threads : ∀ q, (s.proc q).threadParent = none
  orphan : ∀ q, (s.proc q).state = .unused → (s.proc q).parent = none
  parent : ∀ q p, (s.proc q).parent = some p → (s.proc p).state.alive
  init : (s.proc s.table.initproc).state.alive
  kin : ∀ q p, (s.proc q).parent = some p → s.Heir (s.table.birth q) (s.table.birth p)
  living : ∀ q, (s.proc q).state ≠ .unused → (s.proc q).state ≠ .zombie →
    s.exited (s.table.birth q) = none
  zombie : ∀ q, (s.proc q).state = .zombie →
    s.exited (s.table.birth q) = some ((s.proc q).pid, (s.proc q).xstate)
  past : ∀ b, s.table.issued < b → s.exited b = none
  recorded : ∀ w ∈ s.waits, s.exited w.child = some (w.pid, w.status) ∧ s.Heir w.child w.by_
  reaped : ∀ w ∈ s.waits, ∀ q, (s.proc q).state ≠ .unused → s.table.birth q ≠ w.child
  once : (s.waits.map Waited.child).Nodup

theorem alive_ne_unused {st : ProcState} (h : st.alive) : st ≠ .unused := by
  rintro rfl; cases h

theorem Heir.mono (h : s.Heir child by_) (forker : s'.forker child = s.forker child)
    (init : s'.table.birth s'.table.initproc = s.table.birth s.table.initproc)
    (exited : ∀ b, (s.exited b).isSome → (s'.exited b).isSome) : s'.Heir child by_ := by
  obtain ⟨f, hf, hby⟩ := h
  refine ⟨f, forker.trans hf, ?_⟩
  rcases hby with hby | ⟨hby, hex⟩
  · exact .inl hby
  · exact .inr ⟨hby.trans init.symm, exited f hex⟩

theorem Family.calm (h : s.Family) (calm : s.Calm s') : s'.Family := by
  have quiet := calm.table
  have heir : ∀ {a b}, s.Heir a b → s'.Heir a b := fun ha =>
    ha.mono (by rw [calm.forker]) (by rw [quiet.birth, quiet.initproc])
      (fun b hb => by rwa [calm.exited])
  have zombie : ∀ q, (s'.proc q).state = .zombie ↔ (s.proc q).state = .zombie := by
    intro q
    rcases quiet.state q with hs | ⟨hs, hs'⟩
    · rw [proc, hs]; rfl
    · constructor <;> intro hz
      · rw [proc] at hz; rw [hz] at hs'; cases hs'
      · rw [proc] at hz; rw [hz] at hs; cases hs
  have unused : ∀ q, (s'.proc q).state = .unused ↔ (s.proc q).state = .unused := fun q =>
    quiet.unused
  refine ⟨fun q => ?_, fun q hq => ?_, fun q p hq => ?_, ?_, fun q p hq => ?_, fun q hq hz => ?_,
    fun q hq => ?_, fun b hb => ?_, fun w hw => ?_, fun w hw q hq => ?_, ?_⟩
  · exact (quiet.threadParent q).trans (h.threads q)
  · exact (quiet.parent q).trans (h.orphan q ((unused q).mp hq))
  · exact quiet.alive (h.parent q p ((quiet.parent q).symm.trans hq))
  · rw [quiet.initproc]
    exact quiet.alive h.init
  · rw [quiet.birth]
    exact heir (h.kin q p ((quiet.parent q).symm.trans hq))
  · rw [calm.exited, quiet.birth]
    exact h.living q (mt (unused q).mpr hq) (mt (zombie q).mpr hz)
  · rw [calm.exited, quiet.birth, proc, quiet.pid, quiet.xstate]
    exact h.zombie q ((zombie q).mp hq)
  · rw [calm.exited]
    exact h.past b (quiet.issued ▸ hb)
  · rw [calm.waits] at hw
    rw [calm.exited]
    exact ⟨(h.recorded w hw).1, heir (h.recorded w hw).2⟩
  · rw [calm.waits] at hw
    rw [quiet.birth]
    exact h.reaped w hw q (mt (unused q).mpr hq)
  · rw [calm.waits]
    exact h.once

/-- The entry `np`, which was free, is given to a new process or freed again. -/
theorem Family.renew (h : s.Family) (pids : s.table.Pids) {v : Proc n}
    (was : (s.proc np).state = .unused) (entry : ∀ q, s'.proc q = if q = np then v else s.proc q)
    (threadParent : v.threadParent = none) (parent : v.parent = none)
    (state : v.state = .unused ∨ v.state = .used)
    (birth : ∀ q, s'.table.birth q = if q = np then s.table.issued + 1 else s.table.birth q)
    (issued : s'.table.issued = s.table.issued + 1)
    (initproc : s'.table.initproc = s.table.initproc)
    (forker : ∀ b, b ≤ s.table.issued → s'.forker b = s.forker b) (exited : s'.exited = s.exited)
    (waits : s'.waits = s.waits) : s'.Family := by
  have ne : ∀ q, (s.proc q).state ≠ .unused → q ≠ np := fun q hq hqn => hq (hqn ▸ was)
  have other : ∀ q, q ≠ np → s'.proc q = s.proc q := fun q hq => by rw [entry, if_neg hq]
  have old : ∀ q, q ≠ np → s'.table.birth q = s.table.birth q := fun q hq => by
    rw [birth, if_neg hq]
  have mine : s'.proc np = v := by rw [entry, if_pos rfl]
  have fresh : ∀ w ∈ s.waits, w.child ≤ s.table.issued := by
    intro w hw
    by_contra hlt
    have := (h.recorded w hw).1
    rw [h.past _ (by omega)] at this
    cases this
  have heir : ∀ {a b}, a ≤ s.table.issued → s.Heir a b → s'.Heir a b := fun hle ha =>
    ha.mono (forker _ hle) (by rw [initproc, old _ (ne _ (alive_ne_unused h.init))])
      (fun b hb => by rwa [exited])
  have child : ∀ q r, (s'.proc q).parent = some r → q ≠ np ∧ (s.proc q).parent = some r := by
    intro q r hq
    have hqn : q ≠ np := by
      rintro rfl
      rw [mine, parent] at hq
      cases hq
    exact ⟨hqn, by rwa [other q hqn] at hq⟩
  refine ⟨fun q => ?_, fun q hq => ?_, fun q p hq => ?_, ?_, fun q p hq => ?_, fun q hq hz => ?_,
    fun q hq => ?_, fun b hb => ?_, fun w hw => ?_, fun w hw q hq => ?_, ?_⟩
  · rw [entry]
    split
    · exact threadParent
    · exact h.threads q
  · by_cases hqn : q = np
    · rw [hqn, mine, parent]
    · rw [other q hqn] at hq ⊢
      exact h.orphan q hq
  · have hp := h.parent q p (child q p hq).2
    rwa [other p (ne p (alive_ne_unused hp))]
  · rw [initproc, other _ (ne _ (alive_ne_unused h.init))]
    exact h.init
  · obtain ⟨hqn, hq'⟩ := child q p hq
    have hp := alive_ne_unused (h.parent q p hq')
    have hq0 : (s.proc q).state ≠ .unused := fun hu => by
      rw [h.orphan q hu] at hq'; cases hq'
    rw [old q hqn, old p (ne p hp)]
    exact heir (pids.birth q hq0).2 (h.kin q p hq')
  · rw [exited]
    by_cases hqn : q = np
    · rw [birth, if_pos hqn]
      exact h.past _ (by omega)
    · rw [other q hqn] at hq hz
      rw [old q hqn]
      exact h.living q hq hz
  · by_cases hqn : q = np
    · rw [hqn, mine] at hq
      rcases state with hs | hs <;> rw [hs] at hq <;> cases hq
    · rw [other q hqn] at hq ⊢
      rw [exited, old q hqn]
      exact h.zombie q hq
  · rw [exited]
    exact h.past b (by omega)
  · rw [waits] at hw
    rw [exited]
    exact ⟨(h.recorded w hw).1, heir (fresh w hw) (h.recorded w hw).2⟩
  · rw [waits] at hw
    by_cases hqn : q = np
    · rw [birth, if_pos hqn]
      have := fresh w hw
      omega
    · rw [other q hqn] at hq
      rw [old q hqn]
      exact h.reaped w hw q hq
  · rw [waits]
    exact h.once

theorem Family.fork (h : s.Family) (pids : s.table.Pids) (p : Fin n) (mem copy : Bool) :
    (s.fork p mem copy).Family := by
  unfold State.fork
  rcases s.table.allocproc_cases mem with hc | ⟨np, hf, hc⟩
  · rw [hc]
    exact h.calm ⟨.refl _, rfl, rfl, rfl⟩
  have was : (s.proc np).state = .unused := findUnused_some hf
  have freed : ∀ pc, ({ s with table := (s.table.take np).freeproc np, pc := pc } : State n).Family :=
    fun pc => h.renew pids (v := {}) was (fun q => by
      rw [proc, freeproc_proc, take_proc]; split <;> rfl) rfl rfl (.inl rfl)
      (fun q => take_birth) rfl rfl (fun _ _ => rfl) rfl rfl
  rcases hc with hc | hc <;> simp only [hc]
  · exact freed _
  split
  · refine h.renew pids was (fun q => take_proc) (h.threads np) (h.orphan np was) (.inr rfl)
      (fun q => take_birth) rfl rfl (fun b hb => ?_) rfl rfl
    refine update_of_ne ?_ _ _
    rw [take_birth, if_pos rfl]
    omega
  · exact freed _

theorem Family.adopt (h : s.Family) (used : (s.proc np).state = .used)
    (entry : ∀ q, s'.proc q = if q = np then v else s.proc q)
    (threadParent : v.threadParent = (s.proc np).threadParent)
    (parent : ∀ p, v.parent = some p → (s.proc np).parent = some p ∨
      (s.proc p).state.alive ∧ s.Heir (s.table.birth np) (s.table.birth p))
    (state : v.state = .used ∨ v.state = .runnable) (birth : s'.table.birth = s.table.birth)
    (issued : s'.table.issued = s.table.issued) (initproc : s'.table.initproc = s.table.initproc)
    (forker : s'.forker = s.forker) (exited : s'.exited = s.exited)
    (waits : s'.waits = s.waits) : s'.Family := by
  have other : ∀ q, q ≠ np → s'.proc q = s.proc q := fun q hq => by rw [entry, if_neg hq]
  have mine : s'.proc np = v := by rw [entry, if_pos rfl]
  have heir : ∀ {a b}, s.Heir a b → s'.Heir a b := fun ha =>
    ha.mono (by rw [forker]) (by rw [birth, initproc]) (fun b hb => by rwa [exited])
  have alive : ∀ q, (s.proc q).state.alive → (s'.proc q).state.alive := by
    intro q hq
    rw [other q]
    · exact hq
    · rintro rfl
      rw [used] at hq
      cases hq
  have live : ∀ q, (s'.proc q).state ≠ .unused → (s.proc q).state ≠ .unused := by
    intro q hq
    by_cases hqn : q = np
    · rw [hqn, used]; nofun
    · rwa [other q hqn] at hq
  refine ⟨fun q => ?_, fun q hq => ?_, fun q p hq => ?_, ?_, fun q p hq => ?_, fun q hq hz => ?_,
    fun q hq => ?_, fun b hb => ?_, fun w hw => ?_, fun w hw q hq => ?_, ?_⟩
  · rw [entry]
    split
    · rw [threadParent]; exact h.threads np
    · exact h.threads q
  · by_cases hqn : q = np
    · rw [hqn, mine] at hq
      rcases state with hs | hs <;> rw [hs] at hq <;> cases hq
    · rw [other q hqn] at hq ⊢
      exact h.orphan q hq
  · by_cases hqn : q = np
    · rw [hqn, mine] at hq
      rcases parent p hq with hp | hp
      · exact alive p (h.parent np p hp)
      · exact alive p hp.1
    · rw [other q hqn] at hq
      exact alive p (h.parent q p hq)
  · rw [initproc]
    exact alive _ h.init
  · rw [birth]
    by_cases hqn : q = np
    · rw [hqn, mine] at hq
      rw [hqn]
      rcases parent p hq with hp | hp
      · exact heir (h.kin np p hp)
      · exact heir hp.2
    · rw [other q hqn] at hq
      exact heir (h.kin q p hq)
  · rw [exited, birth]
    by_cases hqn : q = np
    · rw [hqn]
      exact h.living np (by rw [used]; nofun) (by rw [used]; nofun)
    · rw [other q hqn] at hq hz
      exact h.living q hq hz
  · by_cases hqn : q = np
    · rw [hqn, mine] at hq
      rcases state with hs | hs <;> rw [hs] at hq <;> cases hq
    · rw [other q hqn] at hq ⊢
      rw [exited, birth]
      exact h.zombie q hq
  · rw [exited]
    exact h.past b (issued ▸ hb)
  · rw [waits] at hw
    rw [exited]
    exact ⟨(h.recorded w hw).1, heir (h.recorded w hw).2⟩
  · rw [waits] at hw
    rw [birth]
    exact h.reaped w hw q (live q hq)
  · rw [waits]
    exact h.once

theorem Family.exit (h : s.Family) (pids : s.table.Pids) (run : (s.proc p).state = .running)
    (init : p ≠ s.table.initproc) (status : UInt32) : (s.exit p status).Family := by
  have live : (s.proc p).state ≠ .unused := by rw [run]; rintro ⟨⟩
  have birth : (s.exit p status).table.birth = s.table.birth := exit_birth
  have initproc : (s.exit p status).table.initproc = s.table.initproc := exit_initproc
  have gone : ((s.exit p status).proc p).state = .zombie := by rw [proc, State.exit, exit_self]
  have dead : ∀ q, q ≠ p → ∀ st : ProcState, st.alive = false →
      (((s.exit p status).proc q).state = st ↔ (s.proc q).state = st) :=
    fun q hq _ hst => exit_dead hq hst
  have parent : ∀ q, ((s.exit p status).proc q).parent =
      if (s.proc q).parent = some p then some s.table.initproc else (s.proc q).parent :=
    fun q => exit_parent
  have exitedOf : ∀ b, (s.exit p status).exited b =
      if b = s.table.birth p then some ((s.proc p).pid, status) else s.exited b :=
    fun b => update_apply ..
  have kept : ∀ q, q ≠ p → (s.proc q).state ≠ .unused →
      (s.exit p status).exited (s.table.birth q) = s.exited (s.table.birth q) := by
    intro q hq hu
    rw [exitedOf, if_neg]
    exact fun he => hq (pids.distinct q p hu live he)
  have heir : ∀ {a b}, s.Heir a b → (s.exit p status).Heir a b := fun ha => by
    refine ha.mono rfl (by rw [birth, initproc]) fun b hb => ?_
    rw [exitedOf]
    split
    · rfl
    · exact hb
  have live' : ∀ q, ((s.exit p status).proc q).state ≠ .unused → (s.proc q).state ≠ .unused := by
    intro q hq
    by_cases hqp : q = p
    · rwa [hqp]
    · exact mt (dead q hqp _ rfl).mpr hq
  refine ⟨fun q => exit_threadParent.trans (h.threads q), fun q hq => ?_, fun q r hq => ?_,
    ?_, fun q r hq => ?_, fun q hq hz => ?_, fun q hq => ?_, fun b hb => ?_, fun w hw => ?_,
    fun w hw q hq => ?_, h.once⟩
  · have hqp : q ≠ p := fun he => by rw [he, gone] at hq; cases hq
    rw [parent, h.orphan q ((dead q hqp _ rfl).mp hq)]
    simp
  · rw [parent] at hq
    split at hq
    · cases hq
      exact exit_alive init.symm h.init
    next hne => exact exit_alive (fun he => hne (he ▸ hq)) (h.parent q r hq)
  · rw [initproc]
    exact exit_alive init.symm h.init
  · rw [parent] at hq
    rw [birth]
    split at hq
    next hqp =>
      -- a child of the process that exits goes to `initproc`
      cases hq
      obtain ⟨f, hf, rfl | ⟨he, -⟩⟩ := h.kin q p hqp
      · refine ⟨_, hf, .inr ⟨by rw [birth, initproc], ?_⟩⟩
        rw [exitedOf, if_pos rfl]
        rfl
      · exact (init (pids.distinct p _ live (alive_ne_unused h.init) he)).elim
    next => exact heir (h.kin q r hq)
  · have hqp : q ≠ p := fun he => hz (he ▸ gone)
    rw [birth, kept q hqp (live' q hq)]
    exact h.living q (live' q hq) (mt (dead q hqp _ rfl).mpr hz)
  · rw [birth, proc, State.exit, exit_pid]
    by_cases hqp : q = p
    · subst hqp
      rw [exit_self]
      exact (exitedOf _).trans (if_pos rfl)
    · have hz := (dead q hqp _ rfl).mp hq
      rw [exit_xstate hqp]
      exact (kept q hqp (by rw [hz]; rintro ⟨⟩)).trans (h.zombie q hz)
  · have hb' : s.table.issued < b := exit_issued (t := s.table) ▸ hb
    have := (pids.birth p live).2
    rw [exitedOf, if_neg (by omega)]
    exact h.past b hb'
  · refine ⟨?_, heir (h.recorded w hw).2⟩
    rw [exitedOf, if_neg fun he => h.reaped w hw p live he.symm]
    exact (h.recorded w hw).1
  · rw [birth]
    exact h.reaped w hw q (live' q hq)

theorem Family.reap (h : s.Family) (pids : s.table.Pids) (child : (s.proc pp).parent = some p)
    (exits : (s.proc pp).state = .zombie) : (s.reap p pp).Family := by
  have entry : ∀ q, (s.reap p pp).proc q = if q = pp then {} else s.proc q := fun q =>
    freeproc_proc
  have other : ∀ q, q ≠ pp → (s.reap p pp).proc q = s.proc q := fun q hq => by
    rw [entry, if_neg hq]
  have mine : (s.reap p pp).proc pp = {} := by rw [entry, if_pos rfl]
  have ne : ∀ q, (s.proc q).state.alive → q ≠ pp := fun q hq he => by
    rw [he, exits] at hq; cases hq
  have live : ∀ q, ((s.reap p pp).proc q).state ≠ .unused →
      q ≠ pp ∧ (s.proc q).state ≠ .unused := by
    intro q hq
    have hqp : q ≠ pp := fun he => hq (by rw [he, mine])
    exact ⟨hqp, other q hqp ▸ hq⟩
  have here : (s.proc pp).state ≠ .unused := by rw [exits]; nofun
  have back : ∀ w ∈ (s.reap p pp).waits, w ∈ s.waits ∨
      w = ⟨s.table.birth p, s.table.birth pp, (s.proc pp).pid, (s.proc pp).xstate⟩ := by
    intro w hw
    simpa [State.reap] using hw
  refine ⟨fun q => ?_, fun q hq => ?_, fun q r hq => ?_, ?_, fun q r hq => ?_, fun q hq hz => ?_,
    fun q hq => ?_, h.past, fun w hw => ?_, fun w hw q hq => ?_, ?_⟩
  · rw [entry]
    split
    · rfl
    · exact h.threads q
  · by_cases hqp : q = pp
    · rw [hqp, mine]
    · rw [other q hqp] at hq ⊢
      exact h.orphan q hq
  · rw [entry] at hq
    split at hq
    · cases hq
    · have hr := h.parent q r hq
      rwa [other r (ne r hr)]
  · have hi := h.init
    rwa [show (s.reap p pp).table.initproc = s.table.initproc from rfl, other _ (ne _ hi)]
  · rw [entry] at hq
    split at hq
    · cases hq
    · exact h.kin q r hq
  · obtain ⟨hqp, hu⟩ := live q hq
    rw [other q hqp] at hz
    exact h.living q hu hz
  · have hqp : q ≠ pp := fun he => by rw [he, mine] at hq; cases hq
    rw [other q hqp] at hq ⊢
    exact h.zombie q hq
  · rcases back w hw with hw | rfl
    · exact h.recorded w hw
    · exact ⟨h.zombie pp exits, h.kin pp p child⟩
  · obtain ⟨hqp, hu⟩ := live q hq
    rcases back w hw with hw | rfl
    · exact h.reaped w hw q hu
    · exact fun he => hqp (pids.distinct q pp hu here he)
  · simpa [State.reap, List.nodup_append] using
      ⟨h.once, fun w hw he => h.reaped w hw pp here he.symm⟩

/-- `fork` in `p` records who makes a process before anyone can be its parent. -/
def Making (s : State n) : Prop :=
  ∀ p np pid, s.pc p = .forkParent np pid → s.forker (s.table.birth np) = some (s.table.birth p)

theorem setPc_back {pc pc' : Pc n} (h : (s.setPc p pc).pc q = pc') (ne : pc ≠ pc') :
    s.pc q = pc' := by
  by_cases hq : q = p
  · subst hq
    rw [setPc_self] at h
    exact (ne h).elim
  · rwa [setPc_of_ne _ _ hq] at h

end State

open State

/-- Only `fork` brings a process to the place before `np->parent = p`. -/
theorem Step.forkParent_back (st : Step s l s') (h : s'.pc q = .forkParent np pid) :
    s.pc q = .forkParent np pid ∨ ∃ mem copy, l = .fork q mem copy := by
  cases st with
  | @fork p mem copy free =>
    by_cases hq : q = p
    · subst hq; exact .inr ⟨mem, copy, rfl⟩
    · left
      unfold State.fork at h
      split at h
      · exact setPc_back h nofun
      · split at h
        · rw [setPc_of_ne _ _ hq] at h
          exact setPc_back h nofun
        · exact setPc_back h nofun
  | forkParent at_ run lock => exact .inl (setPc_back (s := s.setParent _ _) h nofun)
  | forkRun at_ run => exact .inl (setPc_back (s := s.setState _ _) h nofun)
  | exit | setkilled | wake | yield | clockintr | pipealloc => exact .inl h
  | kill free => exact .inl (setPc_back (s := { s with table := _ }) h nofun)
  | call | acquire | joined => exact .inl (setPc_back h nofun)
  | @pass p io c s1 next at_ run eq =>
    left
    have frame := pass_frame eq
    rw [← frame.pc]
    cases next <;> exact setPc_back h nofun
  | sleep | block => exact .inl (setPc_back (s := s.sleep _ _) h nofun)
  | pick run =>
    left
    unfold State.pick at h
    split at h
    · exact setPc_back (s := { s with table := _ }) h nofun
    · exact setPc_back (s := { s with table := _ }) h nofun
    · exact h
  | consoleintr lock run =>
    unfold State.consoleintr at h
    dsimp only at h
    repeat' split at h
    all_goals exact .inl h
  | pipeclose lock idle =>
    unfold State.pipeclose at h
    split at h <;> exact .inl h
  | threadCreate free =>
    left
    unfold State.threadCreate at h
    repeat' split at h
    · exact setPc_back (s := { s with table := _ }) h nofun
    · exact setPc_back (s := { s with table := _ }) (setPc_back h nofun) nofun
    · exact setPc_back h nofun
  | threadJoin free =>
    left
    unfold State.threadJoin at h
    repeat' split at h
    · exact setPc_back h nofun
    · exact setPc_back h nofun
    · exact setPc_back (s := { s with table := _ }) h nofun

theorem Step.birth (st : Step s l s')
    (live : (s.proc q).state ≠ .unused) : s'.table.birth q = s.table.birth q := by
  have taken : ∀ np, s.table.findUnused = some np → (s.table.take np).birth q = s.table.birth q := by
    intro np hf
    rw [take_birth, if_neg]
    rintro rfl
    exact live (findUnused_some hf)
  rcases st.calm_or_loud with calm | loud
  · rw [calm.table.birth]
  cases loud with
  | fork free =>
    rcases s.fork_table _ _ _ with ht | ⟨np, hf, ht | ht⟩ <;> rw [ht]
    · exact taken np hf
    · exact taken np hf
  | forkParent | forkRun => rfl
  | exit free init lock => exact congrFun exit_birth q
  | reap at_ run wait found => rw [goOn_table]; rfl
  | threadCreate free =>
    rcases s.threadCreate_table _ _ _ with ht | ⟨np, hf, ht | ht⟩ <;> rw [ht]
    · exact taken np hf
    · exact taken np hf
  | threadJoin free =>
    unfold State.threadJoin
    repeat' split
    all_goals rfl

theorem Step.forker (st : Step s l s') (old : b ≤ s.table.issued) : s'.forker b = s.forker b := by
  rcases st.calm_or_loud with calm | loud
  · rw [calm.forker]
  cases loud with
  | @fork p mem copy free =>
    unfold State.fork
    rcases s.table.allocproc_cases mem with hc | ⟨np, hf, hc | hc⟩ <;> simp only [hc]
    · rfl
    · rfl
    · split
      · refine update_of_ne ?_ _ _
        rw [take_birth, if_pos rfl]
        omega
      · rfl
  | forkParent | forkRun | exit => rfl
  | reap at_ run wait found => rw [goOn_forker]; rfl
  | threadCreate free =>
    unfold State.threadCreate
    repeat' split
    all_goals rfl
  | threadJoin free =>
    unfold State.threadJoin
    repeat' split
    all_goals rfl

theorem State.Making.step (h : s.Making) (places : s.Places) (pids : s.table.Pids)
    (st : Step s l s') : s'.Making := by
  intro p np pid hp
  rcases st.forkParent_back hp with hback | ⟨mem, copy, rfl⟩
  · have used : (s.proc np).state = .used := (places.place p).forks np (by rw [hback]; rfl)
    have alive := (places.place p).alive (by rw [hback]; rfl)
    have live : (s.proc np).state ≠ .unused := by rw [used]; nofun
    rw [st.birth live, st.birth (alive_ne_unused alive), st.forker (pids.birth np live).2]
    exact h p np pid hback
  · cases st with
    | fork free =>
      unfold State.fork at hp ⊢
      rcases s.table.allocproc_cases mem with hc | ⟨np', hf, hc | hc⟩ <;> simp only [hc] at hp ⊢
      · rw [setPc_self] at hp; cases hp
      · rw [setPc_self] at hp; cases hp
      · split at hp
        · rw [setPc_self] at hp
          cases hp
          rw [if_pos ‹_›]
          exact update_self ..
        · rw [setPc_self] at hp; cases hp

def NoThreads (_ : State n) : Label n → Prop
  | .threadCreate .. => False
  | _ => True

instance : DecidableRel (NoThreads (n := n)) := fun s l => by
  apply Label.casesOn (motive := fun l => Decidable (NoThreads s l)) l <;> intros <;>
    dsimp only [NoThreads] <;> infer_instance

theorem State.Family.step (h : s.Family) (places : s.Places) (pids : s.table.Pids)
    (making : s.Making) (ok : NoThreads s l) (st : Step s l s') : s'.Family := by
  rcases st.calm_or_loud with calm | loud
  · exact h.calm calm
  cases loud with
  | fork free => exact h.fork pids _ _ _
  | @forkParent p np pid at_ run lock =>
    have used : (s.proc np).state = .used := (places.place p).forks np (by rw [at_]; rfl)
    refine h.adopt used (fun q => set_proc) rfl (fun r hr => ?_) (.inl used) rfl rfl rfl rfl
      rfl rfl
    cases hr
    exact .inr ⟨by rw [run]; rfl, s.table.birth p, making p np pid at_, .inl rfl⟩
  | @forkRun p np pid at_ run =>
    have used : (s.proc np).state = .used := (places.place p).forks np (by rw [at_]; rfl)
    exact h.adopt used (fun q => set_proc) rfl (fun r hr => .inl hr) (.inr rfl) rfl rfl rfl
      rfl rfl rfl
  | exit free init lock => exact h.exit pids free.1 init _
  | reap at_ run wait found =>
    obtain ⟨child, zombie⟩ := findZombie_some found
    exact (h.reap pids child zombie).calm ⟨by rw [goOn_table]; exact .refl _, goOn_forker,
      goOn_exited, goOn_waits⟩
  | threadCreate free => exact ok.elim
  | @threadJoin p retval io free =>
    -- there is no thread to join
    have none : s.table.findThread p = none := by
      by_contra hne
      obtain ⟨pp, hpp⟩ := Option.ne_none_iff_exists'.mp hne
      exact nomatch (h.threads pp).symm.trans (findThread_some hpp).1
    rw [State.threadJoin, none]
    exact h.calm ⟨.refl _, rfl, rfl, rfl⟩

theorem making [NeZero n] {ok : State n → Label n → Prop} (run : Reach ok s) : s.Making :=
  run.invariant_reach (I := State.Making) nofun fun _ _ _ before h _ hstep =>
    h.step (places before) (pids before) (step_sound hstep)

theorem boot_proc [NeZero n] (q : Fin n) :
    (boot n).proc q = if q = 0 then { state := .runnable, pid := 1 } else {} := by
  show (userinit n).proc q = _
  rw [userinit_eq, set_proc, take_proc, if_pos rfl, take_proc]
  split <;> rfl

theorem State.Family.boot (n : Nat) [NeZero n] : (boot n).Family := by
  have entry := boot_proc (n := n)
  have initproc : (Kernel.boot n).table.initproc = 0 := by
    show (userinit n).initproc = 0
    rw [userinit_eq]
    rfl
  refine ⟨fun q => ?_, fun q _ => ?_, fun q p hq => ?_, ?_, fun q p hq => ?_, fun _ _ _ => rfl,
    fun q hq => ?_, fun _ _ => rfl, nofun, nofun, List.nodup_nil⟩
  · rw [entry]; split <;> rfl
  · rw [entry]; split <;> rfl
  · rw [entry] at hq; split at hq <;> cases hq
  · rw [initproc, entry, if_pos rfl]; rfl
  · rw [entry] at hq; split at hq <;> cases hq
  · rw [entry] at hq; split at hq <;> cases hq

theorem family [NeZero n] (run : Reach NoThreads s) : s.Family :=
  run.invariant_reach (I := State.Family) (.boot n) fun _ _ _ before h ok hstep =>
    h.step (places before) (pids before) (making before) ok (step_sound hstep)

end Xv6.Kernel
