import Xv6.Kernel.Family

/-! `wait`, `exit` and `reparent` under any interleaving. -/

namespace Xv6.Kernel

open Transition State Table

variable {n : Nat} {s s' : State n}

namespace State

variable {s s' : State n} {l : Label n} {p q pp : Fin n}

def SleepsInWait (s : State n) (p : Fin n) : Prop :=
  (s.proc p).state = .sleeping ∧ ∃ addr, s.pc p = .asleep (.wait addr)

/-- The process `p` found no child to wait for and holds `wait_lock`, or it sleeps in `wait`. -/
def Waiting (s : State n) (p : Fin n) : Prop :=
  (∃ addr, s.pc p = .tested (.wait addr)) ∨ s.SleepsInWait p

def Ready (s : State n) (p pp : Fin n) : Prop :=
  (s.proc pp).parent = some p ∧ (s.proc pp).state = .zombie

theorem ready_of_set {t : Table n}
    (h : ((t.set q v).proc pp).parent = some p ∧ ((t.set q v).proc pp).state = .zombie)
    (state : v.state ≠ .zombie) : (t.proc pp).parent = some p ∧ (t.proc pp).state = .zombie := by
  rw [set_proc] at h
  split at h
  · exact (state h.2).elim
  · exact h

theorem Ready.of_calm (calm : s.Calm s') (h : s'.Ready p pp) : s.Ready p pp := by
  refine ⟨(calm.table.parent pp).symm.trans h.1, ?_⟩
  rcases calm.table.state pp with hs | ⟨-, hs⟩
  · exact hs.symm.trans h.2
  · rw [show (s'.table.proc pp).state = .zombie from h.2] at hs
    cases hs

/-- A process that waits is woken by the `exit` that gives it a child to wait for. -/
theorem Waiting.exit (places : s.Places) (free : s.Free x) (init : x ≠ s.table.initproc)
    (lock : s.holder .wait = none) (waiting : (s.exit x status).Waiting p)
    (ready : (s.exit x status).Ready p pp) : s.Waiting p ∧ s.Ready p pp := by
  rcases waiting with ⟨addr, hpc⟩ | ⟨hsleep, addr, hpc⟩
  · -- it would hold `wait_lock`
    have := ((places.place p).holds .wait).mp ⟨_, rfl, .inr hpc⟩
    rw [lock] at this
    cases this
  change s.pc p = .asleep (.wait addr) at hpc
  have ne : p ≠ x := by
    rintro rfl
    obtain ⟨r, hr⟩ := free.user
    rw [hr] at hpc
    cases hpc
  have still : ((s.table.handOver x).proc p).state = .sleeping := by
    rwa [← exit_of_ne ne]
  obtain ⟨before, hchan⟩ := sleeping_of_wakeup still
  have slept : (s.proc p).state = .sleeping := by
    rcases (Table.Moved.reparent s.table x).state (q := p) with hs | hs
    · exact hs.symm.trans before
    · exact hs.1
  have chan : (s.table.proc p).chan = some (.proc p) := (places.place p).chan _ hpc slept
  rw [(Table.Moved.reparent s.table x).chan, chan] at hchan
  refine ⟨.inr ⟨slept, addr, hpc⟩, ?_⟩
  have parent : ((s.table.exit x status).proc pp).parent = some p := ready.1
  by_cases hpp : pp = x
  · subst hpp
    rw [exit_parent, ← reparent_parent] at parent
    rw [parent] at hchan
    simp [ne] at hchan
  · have zombie : (s.proc pp).state = .zombie := (exit_dead hpp rfl).mp ready.2
    rw [exit_parent] at parent
    split at parent
    next child =>
      cases parent
      exact (reparent_wakes child init before chan).elim
    next => exact ⟨parent, zombie⟩

end State

theorem Step.ready_back {l : Label n} (st : Step s l s') (places : s.Places) (ok : NoThreads s l)
    (noExit : ∀ x status, l ≠ .exit x status) (h : s'.Ready p pp) : s.Ready p pp := by
  rcases st.calm_or_loud with calm | loud
  · exact h.of_calm calm
  cases loud with
  | fork free =>
    unfold Ready State.proc at h
    rcases s.fork_table _ _ _ with ht | ⟨np, -, ht | ht⟩ <;> rw [ht] at h
    · exact h
    · exact ready_of_set (ready_of_set h nofun) nofun
    · exact ready_of_set h nofun
  | @forkParent r np pid at_ run lock =>
    have used : (s.proc np).state = .used := (places.place r).forks np (by rw [at_]; rfl)
    exact ready_of_set h (by rw [used]; nofun)
  | forkRun at_ run => exact ready_of_set h nofun
  | exit free init lock => exact (noExit _ _ rfl).elim
  | reap at_ run wait found =>
    unfold Ready State.proc at h
    rw [goOn_table] at h
    exact ready_of_set h nofun
  | threadCreate free => exact ok.elim
  | threadJoin free =>
    unfold State.threadJoin at h
    repeat' split at h
    · exact h
    · exact h
    · exact ready_of_set h nofun

/-- No process waits over a child that has exited. -/
def State.Watch (s : State n) : Prop := ∀ p pp, s.Waiting p → ¬s.Ready p pp

theorem State.Watch.step (h : s.Watch) (places : s.Places) (ok : NoThreads s l)
    (st : Step s l s') : s'.Watch := by
  intro p pp waiting ready
  by_cases hexit : ∃ x status, l = .exit x status
  · obtain ⟨x, status, rfl⟩ := hexit
    cases st with
    | exit free init lock =>
      obtain ⟨waited, was⟩ := waiting.exit places free init lock ready
      exact h p pp waited was
  have was := st.ready_back places ok (fun x status he => hexit ⟨x, status, he⟩) ready
  cases st.went p with
  | idle idle =>
    refine h p pp ?_ was
    rcases idle with ⟨hpc, hsleep⟩ | ⟨out, awake⟩
    · rcases waiting with ⟨addr, hw⟩ | ⟨hs, addr, hw⟩
      · exact .inl ⟨addr, hpc ▸ hw⟩
      · exact .inr ⟨hsleep hs, addr, hpc ▸ hw⟩
    · rcases waiting with ⟨addr, hw⟩ | ⟨-, addr, hw⟩
      · rw [hw] at out; cases out
      · rw [hw] at awake; cases awake
  | @tests io c s1 label at_ eq after =>
    have hc : ∃ addr, c = .wait addr := by
      rw [after] at waiting
      rcases waiting with ⟨addr, hw⟩ | ⟨-, addr, hw⟩ <;> rw [setPc_self] at hw
      · exact ⟨addr, by simpa using hw⟩
      · cases hw
    obtain ⟨addr, rfl⟩ := hc
    exact findZombie_none (pass_wait_sleeps eq).2 was.1 was.2
  | @sleeps c label at_ after =>
    have hc : ∃ addr, c = .wait addr := by
      rcases waiting with ⟨addr, hw⟩ | ⟨-, addr, hw⟩ <;> rw [after] at hw
      · cases hw
      · exact ⟨addr, by simpa using hw⟩
    obtain ⟨addr, rfl⟩ := hc
    exact h p pp (.inl ⟨addr, at_⟩) was

theorem watch [NeZero n] (run : Reach NoThreads s) : s.Watch := by
  refine run.invariant_reach (I := State.Watch) ?_ fun _ _ _ before h ok hstep =>
    h.step (places before) ok (step_sound hstep)
  rintro p pp (⟨addr, hw⟩ | ⟨-, addr, hw⟩) <;> cases hw

/-- How `wait` in `p` returns: with the pid of a child that had exited; with -1 and the child left,
if its status cannot be copied out; or with -1 for want of children or because the caller is killed.
-/
inductive State.WaitReturns (s : State n) (p : Fin n) (addr : Bool) (io : Copies) (s' : State n) :
    Ret → Prop
  | child {pp} (ready : s.Ready p pp) (freed : s'.proc pp = {})
      (record : s'.waits = s.waits ++
        [⟨s.table.birth p, s.table.birth pp, (s.proc pp).pid, (s.proc pp).xstate⟩]) :
      WaitReturns s p addr io s' (.val (s.proc pp).pid)
  | copyout {pp} (ready : s.Ready p pp) (fails : addr = true ∧ io.copyout = false)
      (kept : s'.proc pp = s.proc pp) (record : s'.waits = s.waits) :
      WaitReturns s p addr io s' .fail
  | without (none : (∀ pp, (s.proc pp).parent ≠ some p) ∨ (s.proc p).killed = true)
      (record : s'.waits = s.waits) : WaitReturns s p addr io s' .fail

theorem wait_returns (at_ : s.pc p = .loop (.wait addr)) (st : Step s (.pass p io) s')
    (ret : s'.pc p = .user r) : s.WaitReturns p addr io s' r := by
  cases st with
  | @pass p io c s1 next at' run eq =>
    rw [at_] at at'
    cases at'
    simp only [State.pass, State.waitPass] at eq
    split at eq
    next pp found =>
      have ready : s.Ready p pp := findZombie_some found
      split at eq <;> cases eq <;> simp only [goOn, setHolder_pc, setPc_self] at ret <;> cases ret
      next fails => exact .copyout ready (by simpa using fails) rfl rfl
      next => exact .child ready (freeproc_proc.trans (if_pos rfl)) rfl
    next none =>
      split at eq <;> cases eq <;> simp only [goOn, setHolder_pc, setPc_self] at ret <;> cases ret
      next why =>
        refine .without ?_ rfl
        rcases why with noKids | killed
        · exact .inl fun pp hpp => noKids ⟨pp, hpp⟩
        · exact .inr killed

/-- In every run without threads: no exited process is returned by two calls of `wait`; each is
returned with its pid and status, to its parent, which forked it or is `initproc` when that one has
exited; `wait` fails only without children, when the caller is killed or when `copyout` fails, and
then leaves the child; and while `wait_lock` is free no process sleeps over a child that has exited.
-/
theorem wait_returns_once [NeZero n] {s : State n} (run : Reach NoThreads s) :
    (s.waits.map Waited.child).Nodup ∧
    (∀ w ∈ s.waits, s.exited w.child = some (w.pid, w.status)) ∧
    (∀ p pp, s.Ready p pp → ∃ f, s.forker (s.table.birth pp) = some f ∧
      (s.table.birth p = f ∨ p = s.table.initproc ∧ (s.exited f).isSome)) ∧
    (∀ p addr io s' r, s.pc p = .loop (.wait addr) → step (.pass p io) s = some s' →
      s'.pc p = .user r → s.WaitReturns p addr io s' r) ∧
    (∀ l s', step l s = some s' → s'.waits ≠ s.waits →
      ∃ p addr io r, l = .pass p io ∧ s.pc p = .loop (.wait addr) ∧ s'.pc p = .user r) ∧
    ∀ p pp, s.holder .wait = none → s.SleepsInWait p → ¬s.Ready p pp := by
  have fam := family run
  refine ⟨fam.once, fun w hw => (fam.recorded w hw).1, fun p pp ready => ?_,
    fun p addr io s' r at_ hstep ret => wait_returns at_ (step_sound hstep) ret,
    fun l s' hstep new => ?_, fun p pp _ sleeps => watch run p pp (.inr sleeps)⟩
  · obtain ⟨f, hf, hby | ⟨hby, hex⟩⟩ := fam.kin pp p ready.1
    · exact ⟨f, hf, .inl hby⟩
    · have alive := alive_ne_unused (fam.parent pp p ready.1)
      exact ⟨f, hf, .inr ⟨(pids run).distinct p _ alive (alive_ne_unused fam.init) hby, hex⟩⟩
  · rcases (step_sound hstep).calm_or_loud with calm | loud
    · exact (new calm.waits).elim
    cases loud with
    | @reap p io c pp at_ hrun wait found =>
      have hc : ∃ addr, c = .wait addr := by
        cases c <;> first | exact ⟨_, rfl⟩ | cases wait
      obtain ⟨addr, rfl⟩ := hc
      exact ⟨p, addr, io, _, rfl, at_, setPc_self ..⟩
    | fork free => exact (new (fork_waits ..)).elim
    | forkParent | forkRun | exit => exact (new rfl).elim
    | threadCreate free =>
      unfold State.threadCreate at new
      repeat' split at new
      all_goals exact (new rfl).elim
    | threadJoin free =>
      unfold State.threadJoin at new
      repeat' split at new
      all_goals exact (new rfl).elim

def waitsForChild : List (Label nproc) :=
  [.pick 0, .fork 0 true true, .forkParent 0, .forkRun 0, .call 0 (.wait true), .acquire 0,
    .pass 0 ⟨none, true⟩, .sleep 0, .pick 1, .exit 1 7, .pick 0, .acquire 0, .pass 0 ⟨none, true⟩]

theorem wait_returns_once_child : ∃ s : State nproc, Reach NoThreads s ∧
    s.waits = [⟨1, 2, 2, 7⟩] ∧ s.exited 2 = some (2, 7) := by
  obtain ⟨s, reach, waits⟩ := exists_reach step NoThreads (boot nproc) waitsForChild
    (P := fun s => s.waits = [⟨1, 2, 2, 7⟩]) (by decide +kernel)
  exact ⟨s, reach, waits, (wait_returns_once reach).2.1 ⟨1, 2, 2, 7⟩ (by simp [waits])⟩

end Xv6.Kernel
