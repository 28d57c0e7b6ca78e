import Xv6.Kernel.Moves

/-! Whether a killed process gets to test `killed` again. The loops of `wait`, `sys_sleep`,
`piperead`, `pipewrite` and `consoleread` test it in one section of its lock and sleep in a later
one; a `kill` between the two is not seen. -/

namespace Xv6.Kernel

open Transition

variable {n : Nat} {s s' : State n} {l : Label n}

namespace State

variable {s s' : State n} {l : Label n} {p q : Fin n}

def SleepsInLoop (s : State n) (q : Fin n) : Prop :=
  (s.pc q).inLoopSleep ∧ (s.proc q).state = .sleeping

instance (s : State n) (q : Fin n) : Decidable (s.SleepsInLoop q) :=
  inferInstanceAs (Decidable (_ ∧ _))

/-- How the step came to mark `q`, if it did: by `kill`, which wakes it, or while it ran with
interrupts on. -/
def Marks (s : State n) (l : Label n) (s' : State n) (q : Fin n) : Prop :=
  (∃ p pid, l = .kill p pid ∧ (s.proc q).pid = pid ∧ (s'.proc q).state ≠ .sleeping) ∨
  s.Interruptible q ∧ (s'.proc q).state = .running ∧ s'.pc q = s.pc q

theorem Free.interruptible (free : s.Free p) : s.Interruptible p := by
  refine ⟨free.1, ?_⟩
  have := free.2
  cases hp : s.pc p <;> simp_all [Pc.isUser, Pc.locked]

theorem killed_of_set {t : Table n} (hk : ((t.set p v).proc q).killed = true)
    (same : v.killed = true → (t.proc p).killed = true) : (t.proc q).killed = true := by
  rw [Table.set_proc] at hk
  split at hk
  next hq => subst hq; exact same hk
  next => exact hk

theorem killed_of_moved {t t' : Table n} (h : t.Moved t') (hk : (t'.proc q).killed = true) :
    (t.proc q).killed = true := by
  rwa [h.killed] at hk

theorem marks_kill (hk : (((s.table.kill pid).2).proc q).killed = true) : s.killed q = true ∨
    (s.proc q).pid = pid ∧ ((s.table.kill pid).2.proc q).state ≠ .sleeping := by
  rcases s.table.kill_cases pid with ⟨hc, -⟩ | ⟨r, hpid, hc⟩ <;> rw [hc] at hk ⊢
  · exact .inl hk
  · by_cases hq : q = r
    · subst hq
      refine .inr ⟨hpid, ?_⟩
      rw [Table.set_self, Proc.kill]
      split
      · nofun
      · assumption
    · rw [Table.set_of_ne hq] at hk
      exact .inl hk

theorem marks_setkilled (run : s.Interruptible p)
    (hk : ((s.table.setkilled p).proc q).killed = true) :
    s.killed q = true ∨ s.Interruptible q ∧ ((s.table.setkilled p).proc q).state = .running := by
  by_cases hq : q = p
  · subst hq
    exact .inr ⟨run, by simpa [Table.setkilled, proc] using run.1⟩
  · rw [Table.setkilled, Table.set_of_ne hq] at hk
    exact .inl hk

theorem killed_consoleintr (hk : (s.consoleintr c cur).killed q = true) :
    s.killed q = true ∨ c = Console.ctrlC ∧ cur = some q := by
  unfold State.consoleintr at hk
  repeat' split at hk
  all_goals first
    | exact .inl hk
    | exact .inl (killed_of_moved (.wakeup _ _ _) hk)
    | skip
  next ctrlC _ p =>
    by_cases hq : q = p
    · exact .inr ⟨ctrlC, congrArg some hq.symm⟩
    · rw [killed, proc, Table.setkilled, Table.set_of_ne hq] at hk
      exact .inl hk

/-- The steps that may set `killed` of `q`: a `kill` of its pid, a fault of it, and Ctrl-C while it is
the current process. -/
def marker (s : State n) (q : Fin n) : Label n → Bool
  | .kill _ pid => (s.proc q).pid = pid
  | .setkilled p => p = q
  | .consoleintr c cur => c = Console.ctrlC ∧ cur = some q
  | _ => false

end State

open State

/-- A process that is killed after a step was so before it, or the step marked it. -/
theorem Step.marker {q : Fin n} (st : Step s l s')
    (hk : s'.killed q = true) : s.killed q = true ∨ s.marker q l = true := by
  cases st with
  | fork free =>
    left
    rcases s.fork_table _ _ _ with ht | ⟨np, -, ht | ht⟩ <;> rw [killed, proc, ht] at hk
    · exact hk
    · exact killed_of_set (killed_of_set hk (by intros; contradiction)) id
    · exact killed_of_set hk id
  | forkParent | forkRun | sleep | block | yield => exact .inl (killed_of_set hk id)
  | exit free init lock => exact .inl (killed_of_moved (.handOver _ _) (killed_of_set hk id))
  | kill free =>
    rcases marks_kill hk with h | ⟨hpid, -⟩
    · exact .inl h
    · exact .inr (decide_eq_true hpid)
  | @setkilled p free =>
    by_cases hq : q = p
    · exact .inr (decide_eq_true hq.symm)
    · rw [killed, proc, Table.setkilled, Table.set_of_ne hq] at hk
      exact .inl hk
  | call | acquire | pipealloc | joined => exact .inl hk
  | pass at_ run eq =>
    left
    rw [killed, proc, goOn_table] at hk
    rcases (pass_frame eq).table with ⟨-, ht | ⟨chan, ht⟩⟩ | ⟨pp, -, -, rfl, -⟩
    · rwa [ht] at hk
    · exact killed_of_moved (ht ▸ .wakeup _ _ _) hk
    · exact killed_of_set hk (by intros; contradiction)
  | wake | clockintr => exact .inl (killed_of_moved (.wakeup _ _ _) hk)
  | pick run =>
    unfold State.pick at hk
    split at hk <;> exact .inl (killed_of_set hk id)
  | consoleintr lock run =>
    rcases killed_consoleintr hk with h | ctrlC
    · exact .inl h
    · exact .inr (decide_eq_true ctrlC)
  | pipeclose lock idle =>
    unfold State.pipeclose at hk
    split at hk <;> exact .inl (killed_of_moved (.wakeup _ _ _) hk)
  | threadCreate free =>
    left
    rcases s.threadCreate_table _ _ _ with ht | ⟨np, -, ht | ht⟩ <;> rw [killed, proc, ht] at hk
    · exact hk
    · exact killed_of_set (killed_of_set (killed_of_set hk (by intros; contradiction)) id) id
    · exact killed_of_set (killed_of_set (killed_of_set hk (by intros; contradiction)) id) id
  | threadJoin free =>
    unfold State.threadJoin at hk
    repeat' split at hk
    · exact .inl hk
    · exact .inl hk
    · exact .inl (killed_of_set hk (by intros; contradiction))

theorem Step.marks (st : Step s l s')
    (hk : s'.killed q = true) : s.killed q = true ∨ Marks s l s' q := by
  rcases st.marker hk with before | mark
  · exact .inl before
  cases st with
  | kill free =>
    rcases marks_kill hk with h | ⟨hpid, hs⟩
    · exact .inl h
    · exact .inr (.inl ⟨_, _, rfl, hpid, hs⟩)
  | setkilled free =>
    rcases marks_setkilled free.interruptible hk with h | ⟨run, hs⟩
    · exact .inl h
    · exact .inr (.inr ⟨run, hs, rfl⟩)
  | consoleintr lock run =>
    obtain ⟨rfl, rfl⟩ := of_decide_eq_true mark
    rcases marks_setkilled (run q rfl) hk with h | ⟨hrun, hs⟩
    · exact .inl h
    · exact .inr (.inr ⟨hrun, hs, rfl⟩)
  | _ => cases mark

/-- No `kill` is for the pid of a process that stands between its test of `killed` and its
`sleep`. -/
def KillsAwake (s : State n) : Label n → Prop
  | .kill _ pid => ∀ q, (s.proc q).pid = pid → (s.pc q).aboutToSleep = false
  | _ => True

instance : DecidableRel (KillsAwake (n := n)) := fun s l => by
  apply Label.casesOn (motive := fun l => Decidable (KillsAwake s l)) l <;> intros <;>
    dsimp only [KillsAwake] <;> infer_instance

/-- If `q` is killed, it is not about to sleep in a loop and does not sleep in one. -/
def State.Alert (s : State n) (q : Fin n) : Prop :=
  s.killed q = true → (s.pc q).aboutToSleep = false ∧ ¬s.SleepsInLoop q

theorem State.Alert.step (h : s.Alert q) (ok : KillsAwake s l) (st : Step s l s') : s'.Alert q := by
  intro hk
  cases st.went q with
  | idle idle =>
    rcases idle with ⟨hpc, hsleep⟩ | ⟨out, awake⟩
    · unfold SleepsInLoop
      rw [hpc]
      rcases st.marks hk with killed | ⟨p, pid, rfl, hpid, woken⟩ | ⟨run, running, -⟩
      · exact ⟨(h killed).1, fun hs => (h killed).2 ⟨hs.1, hsleep hs.2⟩⟩
      · exact ⟨ok q hpid, fun hs => woken hs.2⟩
      · refine ⟨?_, fun hs => by rw [running] at hs; cases hs.2⟩
        have := run.2
        cases hp : s.pc q <;> simp_all [Pc.aboutToSleep, Pc.locked]
    · exact ⟨out, fun hs => by rw [hs.1] at awake; cases awake⟩
  | @tests io c s1 label at_ eq after =>
    have alive : s.killed q = false := ((pass_frame eq).sleep c rfl).2
    rcases st.marks hk with killed | ⟨p, pid, hl, -⟩ | ⟨run, -⟩
    · rw [alive] at killed; cases killed
    · rw [label] at hl; cases hl
    · have := run.2
      simp [at_, Pc.locked] at this
  | sleeps label at_ after =>
    rcases st.marks hk with killed | ⟨p, pid, hl, -⟩ | ⟨run, -⟩
    · have := (h killed).1
      rw [at_] at this
      cases this
    · rw [label] at hl; cases hl
    · have := run.2
      simp [at_, Pc.locked] at this

/-- In every run in which no `kill` comes between a process's test of `killed` and its `sleep`, no
killed process sleeps in one of the loops. -/
theorem killed_not_left_asleep [NeZero n] {s : State n} (run : Reach KillsAwake s) (q : Fin n) :
    ¬(s.SleepsInLoop q ∧ (s.proc q).killed = true) := by
  have alert : s.Alert q :=
    run.invariant (I := fun s => s.Alert q) (fun _ => ⟨rfl, nofun⟩)
      fun _ _ _ h ok hstep => h.step ok (step_sound hstep)
  exact fun ⟨sleeps, killed⟩ => (alert killed).2 sleeps

/-- A process that sleeps in `sys_sleep` when it is killed is made runnable. -/
def killsSleeper : List (Label nproc) :=
  [.pick 0, .fork 0 true true, .forkParent 0, .forkRun 0, .pick 1, .call 1 (.sleep 5 none),
    .acquire 1, .pass 1 ⟨none, true⟩, .pass 1 ⟨none, true⟩, .sleep 1, .kill 0 2]

theorem killed_not_left_asleep_runs : ∃ s : State nproc, Reach KillsAwake s ∧
    (s.proc 1).killed = true ∧ ¬(s.SleepsInLoop 1 ∧ (s.proc 1).killed = true) := by
  obtain ⟨s, reach, killed⟩ := exists_reach step KillsAwake (boot nproc) killsSleeper
    (P := fun s => (s.proc 1).killed = true) (by decide +kernel)
  exact ⟨s, reach, killed, killed_not_left_asleep reach 1⟩

def killsTester : List (Label nproc) :=
  [.pick 0, .fork 0 true true, .forkParent 0, .forkRun 0, .pick 1, .call 1 (.sleep 5 none),
    .acquire 1, .pass 1 ⟨none, true⟩, .pass 1 ⟨none, true⟩, .kill 0 2, .sleep 1]

theorem killed_left_asleep : ∃ s : State nproc, Reach (fun _ _ => True) s ∧
    s.SleepsInLoop 1 ∧ (s.proc 1).killed = true :=
  exists_reach step (fun _ _ => True) (boot nproc) killsTester
    (P := fun s => s.SleepsInLoop 1 ∧ (s.proc 1).killed = true) (by decide +kernel)

end Xv6.Kernel
