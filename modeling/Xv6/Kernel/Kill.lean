import Xv6.Kernel.Places

/-! Whom `kill` reaches. A pid other than 0 names at most one process; `kill(0)` finds a free entry,
and `allocproc` does not clear the flag that it leaves there. -/

namespace Xv6.Kernel

open Transition

variable {n : Nat} {s : State n}

/-- The pids and the allocations that the processes came from. -/
structure Table.Pids (t : Table n) : Prop where
  next : t.nextpid = UInt32.ofNat (t.issued + 1)
  unused : ∀ q, (t.proc q).state = .unused → (t.proc q).pid = 0
  pid : ∀ q, (t.proc q).state ≠ .unused → (t.proc q).pid = UInt32.ofNat (t.birth q)
  birth : ∀ q, (t.proc q).state ≠ .unused → 0 < t.birth q ∧ t.birth q ≤ t.issued
  distinct : ∀ q q', (t.proc q).state ≠ .unused → (t.proc q').state ≠ .unused →
    t.birth q = t.birth q' → q = q'

namespace Table.Pids

variable {t t' : Table n} {p : Fin n}

theorem keep (h : t.Pids) (pid : ∀ q, (t'.proc q).pid = (t.proc q).pid)
    (unused : ∀ q, (t'.proc q).state = .unused ↔ (t.proc q).state = .unused)
    (birth : t'.birth = t.birth) (issued : t'.issued = t.issued)
    (nextpid : t'.nextpid = t.nextpid) : t'.Pids where
  next := by rw [nextpid, issued, h.next]
  unused q hq := by rw [pid, h.unused q ((unused q).mp hq)]
  pid q hq := by rw [pid, birth, h.pid q (mt (unused q).mpr hq)]
  birth q hq := by rw [birth, issued]; exact h.birth q (mt (unused q).mpr hq)
  distinct q q' hq hq' heq := by
    rw [birth] at heq
    exact h.distinct q q' (mt (unused q).mpr hq) (mt (unused q').mpr hq') heq

theorem quiet (h : t.Pids) (hq : t.Quiet t') : t'.Pids :=
  h.keep hq.pid (fun _ => hq.unused) hq.birth hq.issued hq.nextpid

theorem moved (h : t.Pids) (hm : Moved t t') : t'.Pids := by
  refine h.keep (fun _ => hm.pid) (fun q => ?_) hm.birth hm.issued hm.nextpid
  rcases hm.state (q := q) with hs | ⟨hs, hs'⟩
  · rw [hs]
  · simp [hs, hs']

theorem set (h : t.Pids) (pid : v.pid = (t.proc p).pid) (before : (t.proc p).state ≠ .unused)
    (after : v.state ≠ .unused) : (t.set p v).Pids := by
  refine h.keep (fun q => ?_) (fun q => ?_) rfl rfl rfl <;>
    rw [set_proc] <;> split <;> simp_all

theorem freeproc (h : t.Pids) : (t.freeproc p).Pids where
  next := h.next
  unused q hq := by
    rw [freeproc_proc] at hq ⊢
    split
    · rfl
    · exact h.unused q (by simp_all)
  pid q hq := by
    rw [freeproc_proc] at hq ⊢
    split <;> simp_all [h.pid]
  birth q hq := by
    rw [freeproc_proc] at hq
    split at hq
    · simp at hq
    · exact h.birth q hq
  distinct q q' hq hq' heq := by
    rw [freeproc_proc] at hq hq'
    split at hq
    · simp at hq
    split at hq'
    · simp at hq'
    exact h.distinct q q' hq hq' heq

theorem take (h : t.Pids) : (t.take p).Pids where
  next := by
    rw [take_nextpid, take_issued, h.next]
    simp
  unused q hq := by
    rw [take_proc] at hq ⊢
    split at hq
    · simp at hq
    next hne => rw [if_neg hne]; exact h.unused q hq
  pid q hq := by
    rw [take_proc] at hq ⊢
    rw [take_birth]
    split at hq
    next heq => simp [heq, h.next]
    next hne => simp [hne, h.pid q hq]
  birth q hq := by
    rw [take_proc] at hq
    rw [take_birth, take_issued]
    split at hq
    next heq => simp [heq]
    next hne =>
      have := h.birth q hq
      simp only [hne, if_false]
      omega
  distinct q q' hq hq' heq := by
    rw [take_proc] at hq hq'
    rw [take_birth, take_birth] at heq
    split at hq <;> split at hq'
    next hp hp' => rw [hp, hp']
    next hp hne =>
      rw [if_pos hp, if_neg hne] at heq
      have := h.birth q' hq'
      omega
    next hne hp =>
      rw [if_neg hne, if_pos hp] at heq
      have := h.birth q hq
      omega
    next hne hne' =>
      rw [if_neg hne, if_neg hne'] at heq
      exact h.distinct q q' hq hq' heq

theorem exit (h : t.Pids) (status : UInt32) (run : (t.proc p).state = .running) :
    (t.exit p status).Pids := by
  have hm := Moved.handOver t p
  refine (h.moved hm).set rfl ?_ (by simp)
  rcases hm.state (q := p) with hs | ⟨hs, -⟩ <;> simp_all

theorem takeThread (h : t.Pids) (parent np : Fin n) : (t.takeThread parent np).Pids :=
  h.take.set rfl (by simp [take_proc]) (by simp [take_proc])

end Table.Pids

open Table

theorem Table.Pids.step (h : s.table.Pids) (places : s.Places)
    (st : Step s l s') : s'.table.Pids := by
  rcases st.calm_or_loud with calm | loud
  · exact h.quiet calm.table
  cases loud with
  | fork free =>
    rcases s.fork_table _ _ _ with ht | ⟨np, -, ht | ht⟩ <;> rw [ht]
    · exact h
    · exact h.take.freeproc
    · exact h.take
  | forkParent at_ run lock => exact h.moved (.setParent _ _ _)
  | @forkRun p np pid at_ run =>
    have used : (s.table.proc np).state = .used := (places.place p).forks np (by rw [at_]; rfl)
    exact h.set rfl (by rw [used]; nofun) nofun
  | exit free init lock => exact h.exit _ free.1
  | reap at_ run wait found => rw [State.goOn_table]; exact h.freeproc
  | threadCreate free =>
    rcases s.threadCreate_table _ _ _ with ht | ⟨np, -, ht | ht⟩ <;> rw [ht]
    · exact h
    · exact (h.takeThread _ np).freeproc
    · exact (h.takeThread _ np).set (by simp [newThread, takeThread_proc])
        (by simp [takeThread_proc]) nofun
  | threadJoin free =>
    unfold State.threadJoin
    repeat' split
    · exact h
    · exact h
    · exact h.freeproc

theorem Table.Pids.userinit (n : Nat) [NeZero n] : (userinit n).Pids := by
  have zero : (Table.zero n).Pids := by
    constructor <;> simp [Table.zero]
  rw [userinit_eq]
  exact zero.take.set rfl (by simp [take_proc]) (by rintro ⟨⟩)

theorem pids [NeZero n] {ok : State n → Label n → Prop} (run : Reach ok s) : s.table.Pids :=
  run.invariant_reach (I := fun s => s.table.Pids) (.userinit n) fun _ _ _ before h _ hstep =>
    h.step (places before) (step_sound hstep)

/-- No free entry carries the mark of a `kill`. -/
def Table.Clean (t : Table n) : Prop :=
  ∀ q, (t.proc q).state = .unused → (t.proc q).killed = false

namespace Table.Clean

variable {t t' : Table n} {p : Fin n}

theorem keep (h : t.Clean) (same : ∀ q, (t'.proc q).state = .unused →
    (t.proc q).state = .unused ∧ (t'.proc q).killed = (t.proc q).killed) : t'.Clean := by
  intro q hq
  rw [(same q hq).2]
  exact h q (same q hq).1

theorem moved (h : t.Clean) (hm : Moved t t') : t'.Clean := by
  refine h.keep fun q hq => ⟨?_, hm.killed⟩
  rcases hm.state (q := q) with hs | hs
  · rw [← hs, hq]
  · rw [hq] at hs; cases hs.2

theorem set (h : t.Clean) (after : v.state ≠ .unused) : (t.set p v).Clean := by
  intro q hq
  rw [set_proc] at hq ⊢
  split at hq
  · exact (after hq).elim
  next hne => rw [if_neg hne]; exact h q hq

theorem freeproc (h : t.Clean) : (t.freeproc p).Clean := by
  intro q hq
  rw [freeproc_proc] at hq ⊢
  split at hq
  next heq => rw [if_pos heq]
  next hne => rw [if_neg hne]; exact h q hq

theorem take (h : t.Clean) : (t.take p).Clean := by
  intro q hq
  rw [take_proc] at hq ⊢
  split at hq
  · cases hq
  next hne => rw [if_neg hne]; exact h q hq

theorem kill (h : t.Clean) (pids : t.Pids) (ne : pid ≠ 0) : (t.kill pid).2.Clean := by
  rcases t.kill_cases pid with ⟨hc, -⟩ | ⟨q, hpid, hc⟩ <;> rw [hc]
  · exact h
  · have live : (t.proc q).state ≠ .unused := fun hu => ne (hpid ▸ pids.unused q hu)
    refine h.set ?_
    unfold Proc.kill
    split
    · nofun
    · exact live

end Table.Clean

theorem Table.Clean.step (h : s.table.Clean) (pids : s.table.Pids)
    (ok : ∀ p pid, l = .kill p pid → pid ≠ 0) (st : Step s l s') : s'.table.Clean := by
  have run : ∀ {v : Proc n}, v.state = .running → v.state ≠ .unused := fun h => by rw [h]; nofun
  cases st with
  | fork free =>
    rcases s.fork_table _ _ _ with ht | ⟨np, -, ht | ht⟩ <;> rw [ht]
    · exact h
    · exact h.take.freeproc
    · exact h.take
  | forkParent at_ run lock => exact h.moved (.setParent _ _ _)
  | forkRun | sleep | block | yield => exact h.set nofun
  | exit free init lock => exact (h.moved (.handOver _ _)).set nofun
  | kill free => exact h.kill pids (ok _ _ rfl)
  | setkilled free => exact h.set (run free.1)
  | call | acquire | pipealloc | joined => exact h
  | pass at_ run eq =>
    rw [State.goOn_table]
    rcases (State.pass_frame eq).table with ⟨-, ht | ⟨chan, ht⟩⟩ | ⟨pp, -, -, rfl, -⟩
    · rwa [ht]
    · rw [ht]; exact h.moved (.wakeup _ _ _)
    · exact h.freeproc
  | wake | clockintr => exact h.moved (.wakeup _ _ _)
  | pick run =>
    unfold State.pick
    split <;> exact h.set nofun
  | consoleintr lock ready =>
    unfold State.consoleintr
    dsimp only
    repeat' split
    all_goals first
      | exact h
      | exact h.moved (.wakeup _ _ _)
      | exact h.set (run (ready _ rfl).1)
  | pipeclose lock idle =>
    unfold State.pipeclose
    split <;> exact h.moved (.wakeup _ _ _)
  | threadCreate free =>
    rcases s.threadCreate_table _ _ _ with ht | ⟨np, -, ht | ht⟩ <;> rw [ht]
    · exact h
    · exact (h.take.set (by simp [take_proc])).freeproc
    · exact (h.take.set (by simp [take_proc])).set nofun
  | threadJoin free =>
    unfold State.threadJoin
    repeat' split
    · exact h
    · exact h
    · exact h.freeproc

/-- The calls of `kill` are for other pids than 0. -/
def KillsNamed (_ : State n) : Label n → Prop
  | .kill _ pid => pid ≠ 0
  | _ => True

instance : DecidableRel (KillsNamed (n := n)) := fun s l => by
  apply Label.casesOn (motive := fun l => Decidable (KillsNamed s l)) l <;> intros <;>
    dsimp only [KillsNamed] <;> infer_instance

theorem clean [NeZero n] (run : Reach KillsNamed s) : s.table.Clean := by
  have start : (userinit n).Clean := by
    rw [userinit_eq]
    exact Table.Clean.set (Table.Clean.take fun q _ => rfl) nofun
  refine run.invariant_reach (I := fun s => s.table.Clean) start fun s l s' before h ok hstep => ?_
  exact h.step (pids before) (fun p pid hl => by subst hl; exact ok) (step_sound hstep)

/-- In every run without `kill(0)`, `kill(pid)` succeeds just when a process has the pid, marks one
that has it (the only one, unless 2^32 processes were made) and wakes it, and changes nothing else;
and `allocproc` returns no marked process. -/
theorem kill_reaches_named [NeZero n] {s : State n} (run : Reach KillsNamed s) (pid : UInt32)
    (ne : pid ≠ 0) :
    ((s.table.kill pid).1 = true ↔ ∃ q, (s.proc q).state ≠ .unused ∧ (s.proc q).pid = pid) ∧
    ((s.table.kill pid).1 = true → ∃ q, (s.proc q).state ≠ .unused ∧ (s.proc q).pid = pid ∧
      (s.table.kill pid).2 = s.table.set q
        { s.proc q with
          killed := true
          state := if (s.proc q).state = .sleeping then .runnable else (s.proc q).state } ∧
      (s.table.issued < 2 ^ 32 →
        ∀ q', (s.proc q').state ≠ .unused → (s.proc q').pid = pid → q' = q)) ∧
    ((s.table.kill pid).1 = false → (s.table.kill pid).2 = s.table) ∧
    ∀ mem np t, s.table.allocproc mem = (some np, t) → (t.proc np).killed = false := by
  have hp := pids run
  have fresh : ∀ mem np t, s.table.allocproc mem = (some np, t) → (t.proc np).killed = false := by
    intro mem np t ht
    rcases s.table.allocproc_cases mem with hc | ⟨np', hf, hc | hc⟩ <;> rw [hc] at ht <;> cases ht
    rw [take_proc, if_pos rfl]
    exact clean run np (findUnused_some hf)
  rcases s.table.kill_cases pid with ⟨hc, none⟩ | ⟨q, hpid, hc⟩
  · refine ⟨?_, by simp [hc], by simp [hc], fresh⟩
    simp only [hc, Bool.false_eq_true, false_iff]
    exact fun ⟨q, _, hq⟩ => none q hq
  · have live : (s.table.proc q).state ≠ .unused := fun hu => ne (hpid ▸ hp.unused q hu)
    refine ⟨?_, fun _ => ⟨q, live, hpid, by rw [hc]; rfl, fun few q' live' hq' => ?_⟩,
      by simp [hc], fresh⟩
    · exact iff_of_true (by rw [hc]) ⟨q, live, hpid⟩
    · -- below 2^32 allocations a pid gives the allocation back
      have h1 := hp.pid q live
      have h2 := hp.pid q' live'
      have b1 := (hp.birth q live).2
      have b2 := (hp.birth q' live').2
      refine hp.distinct q' q live' live ?_
      have : UInt32.ofNat (s.table.birth q') = UInt32.ofNat (s.table.birth q) := by
        rwa [← h1, ← h2, hpid]
      have := congrArg UInt32.toNat this
      simp only [UInt32.toNat_ofNat'] at this
      omega

/-- A process kills the one that it forked. -/
theorem kill_reaches_named_child : ∃ s : State nproc, Reach KillsNamed s ∧
    (s.table.kill 2).1 = true ∧ ∃ q, (s.proc q).state ≠ .unused ∧ (s.proc q).pid = 2 := by
  obtain ⟨s, reach, found⟩ := exists_reach step KillsNamed (boot nproc)
    [.pick 0, .fork 0 true true, .forkParent 0, .forkRun 0]
    (P := fun s => (s.table.kill 2).1 = true) (by decide +kernel)
  exact ⟨s, reach, found, (kill_reaches_named reach 2 (by decide)).1.mp found⟩

/-- `kill(0)` marks the first free entry, and the next process that `allocproc` returns is marked.
-/
theorem kill_zero_marks_free_entry : ∃ s : State nproc, Reach (fun _ _ => True) s ∧
    (s.table.kill 0).1 = true ∧ (∀ q, (s.proc q).state ≠ .unused → (s.proc q).pid ≠ 0) ∧
    (((s.table.kill 0).2.allocproc true).1.any fun np =>
      (((s.table.kill 0).2.allocproc true).2.proc np).killed) = true :=
  exists_reach step (fun _ _ => True) (boot nproc) [.pick 0]
    (P := fun s => (s.table.kill 0).1 = true ∧
      (∀ q, (s.proc q).state ≠ .unused → (s.proc q).pid ≠ 0) ∧
      (((s.table.kill 0).2.allocproc true).1.any fun np =>
        (((s.table.kill 0).2.allocproc true).2.proc np).killed) = true) (by decide +kernel)

end Xv6.Kernel
