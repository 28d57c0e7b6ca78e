import Xv6.Kernel.Kill

/-! `thread_join`, which reads the pid after `freeproc` has cleared it and stores the four bytes
after the status too; and creators of threads, whose entries may come to be another's. -/

namespace Xv6.Kernel

open Table

open Transition (exists_reach)

variable {n : Nat}

section Join

variable {s s' s'' : State n} {p pp : Fin n} {io : Copies}

/-- The eight bytes from `&pp->xstate` on, which `thread_join` stores: `pid` follows `xstate`. -/
def Proc.joinBytes (v : Proc n) : UInt64 := UInt64.ofNat (v.xstate.toNat + 2 ^ 32 * v.pid.toNat)

def widen (v : UInt32) : UInt64 := UInt64.ofInt (Int.bmod v.toNat (2 ^ 32))

theorem toNat_joinBytes (v : Proc n) :
    v.joinBytes.toNat = v.xstate.toNat + 2 ^ 32 * v.pid.toNat := by
  have := v.xstate.toNat_lt
  have := v.pid.toNat_lt
  rw [Proc.joinBytes, UInt64.toNat_ofNat_of_lt']
  simp only [UInt64.size]
  omega

theorem toNat_widen (v : UInt32) :
    (widen v).toNat = if v.toNat < 2 ^ 31 then v.toNat else v.toNat + (2 ^ 64 - 2 ^ 32) := by
  have lt := v.toNat_lt
  have small : (v.toNat : Int) % (2 ^ 32 : Nat) = v.toNat := Int.emod_eq_of_lt (by omega) (by omega)
  rw [widen, UInt64.ofInt, UInt64.toNat_ofNat', Int.bmod, small]
  split <;> split <;> omega

theorem joinBytes_eq_widen_iff {v : Proc n} : v.joinBytes = widen v.xstate ↔
    v.pid.toNat = if v.xstate.toNat < 2 ^ 31 then 0 else 2 ^ 32 - 1 := by
  rw [← UInt64.toNat_inj, toNat_joinBytes, toNat_widen]
  split <;> omega

/-- What `thread_join` returns and stores, when the entry is not taken again in between: the pid and
the status exactly if the pid is 0, which `allocpid` hands out when `nextpid` has wrapped, and the
status is not negative. -/
theorem thread_join_reports (found : s.table.findThread p = some pp) (copies : io.copyout = true)
    (join : step (.threadJoin p true io) s = some s') (back : step (.joined p) s' = some s'') :
    ∃ r, s''.pc p = .user (.val r) ∧
      (r = (s.proc pp).pid ∧ (s.proc pp).joinBytes = widen (s.proc pp).xstate ↔
        (s.proc pp).pid = 0 ∧ (s.proc pp).xstate.toNat < 2 ^ 31) := by
  obtain ⟨-, joined⟩ := Option.ite_none_right_eq_some.mp join
  rw [State.threadJoin, found] at joined
  simp only [copies, not_true_eq_false, and_false, if_false, Option.some.injEq] at joined
  subst joined
  simp only [step, State.setPc_self] at back
  obtain ⟨-, rfl⟩ := Transition.guarded back
  refine ⟨0, ?_, ?_⟩
  · rw [State.setPc_self]
    show Pc.user (.val ((s.table.freeproc pp).proc pp).pid) = _
    rw [freeproc_proc, if_pos rfl]
  · rw [joinBytes_eq_widen_iff]
    constructor
    · rintro ⟨zero, eq⟩
      rw [← zero] at eq
      refine ⟨zero.symm, ?_⟩
      by_contra negative
      rw [if_neg negative] at eq
      exact absurd eq (by decide)
    · rintro ⟨zero, nonneg⟩
      rw [zero, if_pos nonneg]
      exact ⟨rfl, rfl⟩

/-- A thread that `init` creates exits with 7. -/
def threadExits : List (Label nproc) :=
  [.pick 0, .threadCreate 0 true true, .pick 1, .exit 1 7]

/-- `thread_create` returned pid 0. -/
theorem thread_join_reports_zero : ∃ s s' s'' : State nproc, s.table.findThread 0 = some 1 ∧
    step (.threadJoin 0 true ⟨none, true⟩) s = some s' ∧ step (.joined 0) s' = some s'' ∧
    s''.pc 0 = .user (.val (s.proc 1).pid) ∧ (s.proc 1).joinBytes = widen (s.proc 1).xstate := by
  obtain ⟨s, -, found, zero, nonneg, runs⟩ := exists_reach step (fun _ _ => True)
    { boot nproc with table := { userinit nproc with nextpid := 0 } } threadExits
    (P := fun s : State nproc => s.table.findThread 0 = some 1 ∧ (s.proc 1).pid = 0 ∧
      (s.proc 1).xstate.toNat < 2 ^ 31 ∧
      ((step (.threadJoin 0 true ⟨none, true⟩) s).bind (step (.joined 0))).isSome)
    (by decide +kernel)
  obtain ⟨s'', hs⟩ := Option.isSome_iff_exists.mp runs
  obtain ⟨s', join, back⟩ := Option.bind_eq_some_iff.mp hs
  obtain ⟨r, returns, exact_⟩ := thread_join_reports found rfl join back
  obtain ⟨rfl, stores⟩ := exact_.mpr ⟨zero, nonneg⟩
  exact ⟨s, s', s'', found, join, back, returns, stores⟩

/-- The thread has pid 2: `thread_join` returns 0, and stores the pid above the status. -/
theorem thread_join_loses_pid : ∃ s : State nproc, Reach (fun _ _ => True) s ∧
    s.table.findThread 0 = some 1 ∧ (s.proc 1).pid = 2 ∧ (s.proc 1).xstate = 7 ∧
    ((step (.threadJoin 0 true ⟨none, true⟩) s).bind (step (.joined 0))).map (·.pc 0) =
      some (.user (.val 0)) ∧
    (s.proc 1).joinBytes = 7 + 2 * 2 ^ 32 := by
  obtain ⟨s, reach, h⟩ := exists_reach step (fun _ _ => True) (boot nproc) threadExits
    (P := fun s : State nproc => s.table.findThread 0 = some 1 ∧ (s.proc 1).pid = 2 ∧
      (s.proc 1).xstate = 7 ∧
      ((step (.threadJoin 0 true ⟨none, true⟩) s).bind (step (.joined 0))).map (·.pc 0) =
        some (.user (.val 0)) ∧ (s.proc 1).joinBytes = 7 + 2 * 2 ^ 32) (by decide +kernel)
  exact ⟨s, reach, h⟩

end Join

/-- The kernel with the allocation that the creator of the thread in each entry came from. -/
structure Creation (n : Nat) where
  kernel : State n
  creator : Fin n → Nat

namespace Creation

variable {c : Creation n} {k : State n} {l : Label n} {np : Fin n}

/-- `thread_create` in `p` is recorded for the entry that `allocthread` finds. -/
def record (c : Creation n) : Label n → Fin n → Nat
  | .threadCreate p _ _ => fun q =>
    if c.kernel.table.findUnused = some q then c.kernel.table.birth p else c.creator q
  | _ => c.creator

def step (l : Label n) (c : Creation n) : Option (Creation n) :=
  (Kernel.step l c.kernel).map fun k => ⟨k, c.record l⟩

def boot (n : Nat) [NeZero n] : Creation n := ⟨Kernel.boot n, fun _ => 0⟩

/-- No process exits while it is the `thread_parent` of an entry. -/
def ExitsAlone (c : Creation n) : Label n → Prop
  | .exit p _ => ∀ q, (c.kernel.proc q).threadParent ≠ some p
  | _ => True

instance : DecidableRel (ExitsAlone (n := n)) := fun s l => by
  apply Label.casesOn (motive := fun l => Decidable (ExitsAlone s l)) l <;> intros <;>
    dsimp only [ExitsAlone] <;> infer_instance

/-- A `thread_parent` lives and is the creator, and a free entry has none. -/
structure Owned (c : Creation n) : Prop where
  parent : ∀ q p, (c.kernel.proc q).threadParent = some p →
    (c.kernel.proc p).state.alive = true ∧ c.creator q = c.kernel.table.birth p
  unused : ∀ q, (c.kernel.proc q).state = .unused → (c.kernel.proc q).threadParent = none

theorem record_eq (l : Label n) {q : Fin n} (live : (c.kernel.proc q).state ≠ .unused) :
    c.record l q = c.creator q := by
  cases l with
  | threadCreate p args mem => exact if_neg fun found => live (findUnused_some found)
  | _ => rfl

namespace Owned

theorem live (h : Owned c) {q p : Fin n} (at_ : (c.kernel.proc q).threadParent = some p) :
    (c.kernel.proc q).state ≠ .unused := by
  intro unused
  rw [h.unused q unused] at at_
  cases at_

theorem keep (h : Owned c)
    (same : ∀ q, (k.proc q).threadParent = (c.kernel.proc q).threadParent)
    (alive : ∀ q p, (c.kernel.proc q).threadParent = some p →
      (c.kernel.proc p).state.alive = true → (k.proc p).state.alive = true)
    (unused : ∀ q, (k.proc q).state = .unused → (c.kernel.proc q).state = .unused)
    (birth : k.table.birth = c.kernel.table.birth) : Owned ⟨k, c.record l⟩ := by
  refine ⟨fun q p at_ => ?_, fun q free => ?_⟩
  · replace at_ : (c.kernel.proc q).threadParent = some p := (same q).symm.trans at_
    obtain ⟨lives, creator⟩ := h.parent q p at_
    refine ⟨alive q p at_ lives, ?_⟩
    show c.record l q = k.table.birth p
    rw [record_eq l (h.live at_), creator, birth]
  · exact (same q).trans (h.unused q (unused q free))

theorem quiet (h : Owned c) (table : c.kernel.table.Quiet k.table) : Owned ⟨k, c.record l⟩ := by
  refine h.keep table.threadParent (fun _ p _ alive => ?_) (fun q => table.unused.mp) table.birth
  rcases table.state p with same | ⟨-, alive'⟩
  · show (k.table.proc p).state.alive = true
    rwa [same]
  · exact alive'

/-- The entry `np`, which no living process has, is given to another process or freed. -/
theorem replace (h : Owned c) (dead : (c.kernel.proc np).state.alive = false)
    (other : ∀ q, q ≠ np → k.proc q = c.kernel.proc q)
    (birth : ∀ q, q ≠ np → k.table.birth q = c.kernel.table.birth q)
    (new : ∀ p, (k.proc np).threadParent = some p →
      (c.kernel.proc p).state.alive = true ∧ c.record l np = c.kernel.table.birth p)
    (unused : (k.proc np).state = .unused → (k.proc np).threadParent = none) :
    Owned ⟨k, c.record l⟩ := by
  have lives : ∀ p, (c.kernel.proc p).state.alive = true → p ≠ np := by
    rintro p alive rfl
    rw [dead] at alive
    cases alive
  refine ⟨fun q p at_ => ?_, fun q free => ?_⟩
  · obtain ⟨alive, creator⟩ : (c.kernel.proc p).state.alive = true ∧
        c.record l q = c.kernel.table.birth p := by
      by_cases hq : q = np
      · subst hq
        exact new p at_
      · rw [other q hq] at at_
        rw [record_eq l (h.live at_)]
        exact h.parent q p at_
    refine ⟨?_, ?_⟩
    · rwa [other p (lives p alive)]
    · show c.record l q = k.table.birth p
      rw [creator, birth p (lives p alive)]
  · by_cases hq : q = np
    · subst hq
      exact unused free
    · rw [other q hq] at free ⊢
      exact h.unused q free

theorem freeproc (h : Owned c) (dead : (c.kernel.proc np).state.alive = false)
    (table : ∀ q, k.proc q = if q = np then {} else c.kernel.proc q)
    (birth : ∀ q, q ≠ np → k.table.birth q = c.kernel.table.birth q) : Owned ⟨k, c.record l⟩ := by
  have empty : (k.proc np).threadParent = none := by
    rw [table, if_pos rfl]
  refine h.replace dead (fun q hq => ?_) birth (fun p at_ => ?_) fun _ => empty
  · rw [table, if_neg hq]
  · rw [empty] at at_
    cases at_

theorem reap (h : Owned c) (zombie : (c.kernel.proc np).state = .zombie)
    (table : k.table = c.kernel.table.freeproc np) : Owned ⟨k, c.record l⟩ := by
  refine h.freeproc (by rw [zombie]; rfl) (fun q => ?_) fun q _ => by rw [table]; rfl
  show k.table.proc q = _
  rw [table, freeproc_proc]
  rfl

theorem step (h : Owned c) (ok : ExitsAlone c l) (st : Step c.kernel l k) :
    Owned ⟨k, c.record l⟩ := by
  have taken : ∀ np q, q ≠ np → (c.kernel.table.take np).birth q = c.kernel.table.birth q :=
    fun np q hq => by rw [take_birth, if_neg hq]
  have vacant : ∀ {np}, c.kernel.table.findUnused = some np →
      (c.kernel.proc np).state.alive = false := fun found => by
    rw [State.proc, findUnused_some found]
    rfl
  rcases st.calm_or_loud with calm | loud
  · exact h.quiet calm.table
  cases loud with
  | @fork p mem copy free =>
    rcases c.kernel.fork_table p mem copy with ht | ⟨np, found, ht | ht⟩
    · exact h.quiet (by rw [ht]; exact .refl _)
    · refine h.freeproc (vacant found) (fun q => ?_) fun q hq => ?_
      · rw [State.proc, ht, freeproc_proc, take_proc]
        split <;> rfl
      · rw [ht]
        exact taken np q hq
    · have free := h.unused np (findUnused_some found)
      have entry : ((c.kernel.fork p mem copy).proc np).threadParent = none := by
        rwa [State.proc, ht, take_proc, if_pos rfl]
      refine h.replace (vacant found) (fun q hq => ?_) (fun q hq => ?_) (fun p at_ => ?_)
        fun _ => entry
      · rw [State.proc, ht, take_proc, if_neg hq]
        rfl
      · rw [ht]
        exact taken np q hq
      · rw [entry] at at_
        cases at_
  | forkParent at_ run lock =>
    have moved := Table.Moved.setParent c.kernel.table
    refine h.keep (fun q => (moved _ _).threadParent) (fun q p _ alive => ?_) (fun q free => ?_) rfl
    · rcases (moved _ _).state (q := p) with same | ⟨-, runs⟩
      · exact (congrArg ProcState.alive same).trans alive
      · exact congrArg ProcState.alive runs
    · rcases (moved _ _).state (q := q) with same | ⟨-, runs⟩
      · exact same.symm.trans free
      · exact absurd (runs.symm.trans free) (by rintro ⟨⟩)
  | @forkRun p np pid at_ run =>
    have entry : ∀ q, ((c.kernel.setState np .runnable).proc q) =
        if q = np then { c.kernel.proc np with state := .runnable } else c.kernel.proc q :=
      fun q => set_proc
    refine h.keep (fun q => ?_) (fun q p _ alive => ?_) (fun q free => ?_) rfl
    · rw [State.setPc_proc, entry]
      split
      · rename_i hq
        rw [hq]
      · rfl
    · rw [State.setPc_proc, entry]
      split
      · rfl
      · exact alive
    · rw [State.setPc_proc, entry] at free
      split at free
      · cases free
      · exact free
  | @exit p status free init lock =>
    refine h.keep (fun q => exit_threadParent) (fun q x at_ alive => ?_) (fun q gone => ?_)
      exit_birth
    · exact exit_alive (fun hx => ok q (hx ▸ at_)) alive
    · by_cases hq : q = p
      · subst hq
        replace gone : ((c.kernel.table.exit q status).proc q).state = .unused := gone
        rw [exit_self] at gone
        cases gone
      · exact (exit_dead hq rfl).mp gone
  | @reap p io c0 pp at_ run wait found =>
    exact h.reap (findZombie_some found).2 (by rw [State.goOn_table]; rfl)
  | @threadCreate p args mem free =>
    rcases c.kernel.threadCreate_table p args mem with ht | ⟨np, found, ht | ht⟩
    · exact h.quiet (by rw [ht]; exact .refl _)
    · refine h.freeproc (vacant found) (fun q => ?_) fun q hq => ?_
      · rw [State.proc, ht, freeproc_proc, takeThread_proc]
        split <;> rfl
      · rw [ht]
        exact taken np q hq
    · have entry : ∀ q, (c.kernel.threadCreate p args mem).proc q = if q = np then
          { c.kernel.table.newThread p np with state := .runnable } else c.kernel.proc q := by
        intro q
        rw [State.proc, ht, set_proc, takeThread_proc]
        split <;> rfl
      refine h.replace (vacant found) (fun q hq => ?_) (fun q hq => ?_) (fun x at_ => ?_)
        fun unused => ?_
      · rw [entry, if_neg hq]
      · rw [ht]
        exact taken np q hq
      · rw [entry, if_pos rfl] at at_
        obtain rfl : p = x := Option.some.inj at_
        exact ⟨by rw [free.1]; rfl, if_pos found⟩
      · rw [entry, if_pos rfl] at unused
        cases unused
  | @threadJoin p retval io free =>
    unfold State.threadJoin
    split
    · exact h.quiet (.refl _)
    next pp found =>
      split
      · exact h.quiet (.refl _)
      · exact h.reap (findThread_some found).2 rfl

end Owned

/-- If no process exits while it is a `thread_parent`, every `thread_parent` is a living process,
the one that created the thread, and `thread_join` finds only threads that its caller created. -/
theorem threads_of_creator [NeZero n] (run : Transition.Reach step ExitsAlone (boot n) c) :
    (∀ q p, (c.kernel.proc q).threadParent = some p →
      (c.kernel.proc p).state.alive = true ∧ c.creator q = c.kernel.table.birth p) ∧
    ∀ p pp, c.kernel.table.findThread p = some pp → c.creator pp = c.kernel.table.birth p := by
  have empty (q : Fin n) : ((Kernel.boot n).proc q).threadParent = none := by
    show ((userinit n).proc q).threadParent = none
    rw [userinit_eq, set_proc]
    split
    · rfl
    · rw [take_proc]
      split <;> rfl
  have owned : Owned c := by
    refine run.invariant (I := Owned) ⟨fun q p at_ => ?_, fun q _ => empty q⟩ ?_
    · cases (empty q).symm.trans at_
    · rintro c l c' h ok hstep
      obtain ⟨k, hk, rfl⟩ := Option.map_eq_some_iff.mp hstep
      exact h.step ok (step_sound hk)
  exact ⟨owned.parent, fun p pp found => (owned.parent pp p (findThread_some found).1).2⟩

/-- `init` creates a thread, which exits. -/
theorem threads_of_creator_init : ∃ c : Creation nproc,
    Transition.Reach step ExitsAlone (boot nproc) c ∧ c.kernel.table.findThread 0 = some 1 ∧
    c.creator 1 = c.kernel.table.birth 0 := by
  obtain ⟨c, run, found⟩ := exists_reach step ExitsAlone (boot nproc) threadExits
    (P := fun c : Creation nproc => c.kernel.table.findThread 0 = some 1) (by decide +kernel)
  exact ⟨c, run, found, (threads_of_creator run).2 0 1 found⟩

/-- The child of `init` creates a thread and exits, `init` waits and forks again: `thread_join` in
the second child finds the thread of the first. -/
theorem thread_outlives_creator : ∃ c : Creation nproc,
    Transition.Reach step (fun _ _ => True) (boot nproc) c ∧
    (c.kernel.proc 2).threadParent = some 1 ∧ c.creator 2 ≠ c.kernel.table.birth 1 ∧
    c.kernel.table.findThread 1 = some 2 := by
  obtain ⟨c, run, h⟩ := exists_reach step (fun _ _ => True) (boot nproc)
    [.pick 0, .fork 0 true true, .forkParent 0, .forkRun 0, .pick 1, .threadCreate 1 true true,
      .exit 1 0, .call 0 (.wait false), .acquire 0, .pass 0 ⟨none, true⟩,
      .fork 0 true true, .forkParent 0, .forkRun 0, .pick 2, .exit 2 7]
    (P := fun c : Creation nproc => (c.kernel.proc 2).threadParent = some 1 ∧
      c.creator 2 ≠ c.kernel.table.birth 1 ∧ c.kernel.table.findThread 1 = some 2)
    (by decide +kernel)
  exact ⟨c, run, h⟩

end Creation

end Xv6.Kernel
