import Xv6.Kernel.Effects

/-! Where the processes can stand: a process in a call is alive, holds the call's lock between the
loop's head and `sleep`, and sleeps on the call's channel; a new process is out of reach until
`fork` is done with it. -/

namespace Xv6.Kernel

open Transition

variable {n : Nat}

def Pc.forks : Pc n → Option (Fin n)
  | forkParent np _ | forkRun np _ => some np
  | _ => none

namespace State

variable {s s' : State n} {p q : Fin n}

def Holds (s : State n) (lk : Lk) (q : Fin n) : Prop :=
  ∃ c : Call, c.lk = lk ∧ (s.pc q = .loop c ∨ s.pc q = .tested c)

/-- What the place of the process `q` says about the table and the locks. -/
structure Place (s : State n) (q : Fin n) : Prop where
  alive : (s.pc q).isUser = false → (s.proc q).state.alive
  locked : (s.pc q).locked → (s.proc q).state = .running
  holds : ∀ lk, s.Holds lk q ↔ s.holder lk = some q
  chan : ∀ c, s.pc q = .asleep c → (s.proc q).state = .sleeping →
    (s.proc q).chan = some (c.chan q)
  forks : ∀ np, (s.pc q).forks = some np → (s.proc np).state = .used

structure Places (s : State n) : Prop where
  place : ∀ q, s.Place q
  one : ∀ q q' np, (s.pc q).forks = some np → (s.pc q').forks = some np → q = q'

/-- The step does not stop the process `q` or put it to sleep. -/
structure Steady (s s' : State n) (q : Fin n) : Prop where
  pc : s'.pc q = s.pc q
  holder : ∀ lk, s'.holder lk = some q ↔ s.holder lk = some q
  alive : (s.proc q).state.alive → (s'.proc q).state.alive
  run : (s.proc q).state = .running → (s'.proc q).state = .running
  sleep : (s'.proc q).state = .sleeping →
    (s.proc q).state = .sleeping ∧ (s'.proc q).chan = (s.proc q).chan

theorem Place.steady (h : s.Place q) (hs : Steady s s' q)
    (used : ∀ np, (s.pc q).forks = some np → (s'.proc np).state = .used) : s'.Place q where
  alive hq := hs.alive (h.alive (hs.pc ▸ hq))
  locked hq := hs.run (h.locked (hs.pc ▸ hq))
  holds lk := by
    rw [hs.holder, ← h.holds]
    simp only [Holds, hs.pc]
  chan c hc hsleep := by
    obtain ⟨hsl, hch⟩ := hs.sleep hsleep
    rw [hch]
    exact h.chan c (hs.pc ▸ hc) hsl
  forks np hnp := used np (hs.pc ▸ hnp)

end State

namespace Table

variable {t t' : Table n} {q : Fin n}

theorem Quiet.alive (h : t.Quiet t') (hq : (t.proc q).state.alive) : (t'.proc q).state.alive := by
  rcases h.state q with hs | hs
  · rwa [hs]
  · exact hs.2

theorem Quiet.used (h : t.Quiet t') (hq : (t.proc q).state = .used) :
    (t'.proc q).state = .used := by
  rcases h.state q with hs | hs
  · rwa [hs]
  · rw [hq] at hs; cases hs.1

end Table

namespace State

variable {s s' : State n} {p q np : Fin n} {c : Call}

/-- The process `q` neither stops running nor falls asleep between the tables. -/
def Still (t t' : Table n) (q : Fin n) : Prop :=
  ((t.proc q).state = .running → (t'.proc q).state = .running) ∧
  ((t'.proc q).state = .sleeping →
    (t.proc q).state = .sleeping ∧ (t'.proc q).chan = (t.proc q).chan)

theorem Still.refl (t : Table n) (q : Fin n) : Still t t q := ⟨id, fun h => ⟨h, rfl⟩⟩

theorem Still.wakeup (t : Table n) (q : Fin n) (me chan) : Still t (t.wakeup me chan) q := by
  refine ⟨fun h => ?_, fun h => ⟨(Table.sleeping_of_wakeup h).1, Table.wakeup_chan⟩⟩
  rcases Table.wakeup_state_eq t me chan q with hs | hs
  · rw [hs, h]
  · rw [h] at hs; cases hs.1

theorem Still.set (h : q ≠ p) : Still t (t.set p v) q := by
  unfold Still
  rw [Table.set_of_ne h]
  exact Still.refl t q

theorem Still.kill (t : Table n) (q : Fin n) (pid : UInt32) : Still t (t.kill pid).2 q := by
  rcases t.kill_cases pid with ⟨h, -⟩ | ⟨p, -, h⟩ <;> rw [h]
  · exact .refl t q
  · by_cases hq : q = p
    · subst hq
      simp only [Still, Table.set_self, Proc.kill]
      grind
    · exact .set hq

theorem Still.setkilled (t : Table n) (p q : Fin n) : Still t (t.setkilled p) q := by
  by_cases hq : q = p
  · subst hq
    simp [Still, Table.setkilled]
  · exact .set hq

theorem Places.own (h : s.Places) (p : Fin n) (steady : ∀ q, q ≠ p → Steady s s' q)
    (used : ∀ q, q ≠ p → ∀ np, (s.pc q).forks = some np → (s'.proc np).state = .used)
    (place : s'.Place p)
    (forks : ∀ np, (s'.pc p).forks = some np → ∀ q, q ≠ p → (s.pc q).forks ≠ some np) :
    s'.Places where
  place q := by
    by_cases hq : q = p
    · rwa [hq]
    · exact (h.place q).steady (steady q hq) (used q hq)
  one q q' np hq hq' := by
    have other : ∀ r, r ≠ p → (s'.pc r).forks = some np → (s.pc r).forks = some np :=
      fun r hr hf => by rwa [(steady r hr).pc] at hf
    by_cases hqp : q = p <;> by_cases hqp' : q' = p
    · rw [hqp, hqp']
    · subst hqp; exact (forks np hq q' hqp' (other q' hqp' hq')).elim
    · subst hqp'; exact (forks np hq' q hqp (other q hqp hq)).elim
    · exact h.one q q' np (other q hqp hq) (other q' hqp' hq')

theorem Places.calm (h : s.Places) (p : Fin n) (table : s.table.Quiet s'.table)
    (pc : ∀ q, q ≠ p → s'.pc q = s.pc q) (still : ∀ q, q ≠ p → Still s.table s'.table q)
    (holder : ∀ q lk, q ≠ p → (s'.holder lk = some q ↔ s.holder lk = some q))
    (place : s'.Place p) (forks : (s'.pc p).forks = none) : s'.Places :=
  h.own p
    (fun q hq => ⟨pc q hq, fun lk => holder q lk hq, table.alive, (still q hq).1, (still q hq).2⟩)
    (fun q _ np hnp => table.used ((h.place q).forks np hnp)) place
    (fun np hnp => by rw [forks] at hnp; cases hnp)

theorem Places.env (h : s.Places) (table : s.table.Quiet s'.table) (pc : s'.pc = s.pc)
    (holder : s'.holder = s.holder) (still : ∀ q, Still s.table s'.table q) : s'.Places where
  place q := (h.place q).steady
    ⟨by rw [pc], fun lk => by rw [holder], table.alive, (still q).1, (still q).2⟩
    fun np hnp => table.used ((h.place q).forks np hnp)
  one q q' np hq hq' := h.one q q' np (pc ▸ hq) (pc ▸ hq')

theorem Place.of_user (pc : s.pc q = .user r) (free : ∀ lk, s.holder lk ≠ some q) : s.Place q where
  alive hq := by rw [pc] at hq; cases hq
  locked hq := by rw [pc] at hq; cases hq
  holds lk := by simp [Holds, pc, free lk]
  chan c hc := by rw [pc] at hc; cases hc
  forks np hnp := by rw [pc] at hnp; cases hnp

theorem Place.of_outside (alive : (s.proc q).state.alive) (out : (s.pc q).locked = false)
    (forks : (s.pc q).forks = none) (free : ∀ lk, s.holder lk ≠ some q)
    (chan : ∀ c, s.pc q = .asleep c → (s.proc q).state = .sleeping →
      (s.proc q).chan = some (c.chan q)) : s.Place q where
  alive _ := alive
  locked hq := by rw [out] at hq; cases hq
  holds lk := by
    refine ⟨?_, fun hl => (free lk hl).elim⟩
    rintro ⟨c, -, hc | hc⟩ <;> rw [hc] at out <;> cases out
  chan := chan
  forks np hnp := by rw [forks] at hnp; cases hnp

theorem Place.of_locked (pc : s.pc q = .loop c ∨ s.pc q = .tested c)
    (run : (s.proc q).state = .running) (hold : ∀ lk, s.holder lk = some q ↔ lk = c.lk) :
    s.Place q where
  alive _ := by rw [run]; rfl
  locked _ := run
  holds lk := by
    rw [hold]
    constructor
    · rintro ⟨c', rfl, hc⟩
      have : c' = c := by rcases pc with pc | pc <;> rw [pc] at hc <;> simp_all
      rw [this]
    · rintro rfl
      exact ⟨c, rfl, pc⟩
  chan c' _ hsl := by rw [run] at hsl; cases hsl
  forks np hnp := by rcases pc with pc | pc <;> rw [pc] at hnp <;> cases hnp

theorem Place.free (h : s.Place q) (out : (s.pc q).locked = false) (lk : Lk) :
    s.holder lk ≠ some q := by
  intro hl
  obtain ⟨c, -, hc | hc⟩ := (h.holds lk).mpr hl <;> rw [hc] at out <;> cases out

section

variable (h : s.Places)

include h

theorem Places.user (hq : (s.proc q).state.alive = false ∨ (s.pc q).isUser = true) :
    (s.setPc q (.user r)).Places := by
  have out : (s.pc q).isUser = true := by
    rcases hq with hq | hq
    · by_contra hu
      rw [(h.place q).alive (by simpa using hu)] at hq
      cases hq
    · exact hq
  have outside : (s.pc q).locked = false := by
    generalize s.pc q = pc at out
    cases pc <;> simp_all [Pc.isUser, Pc.locked]
  refine h.calm q (.refl _) (fun q' hq' => s.setPc_of_ne _ hq') (fun _ _ => .refl _ _)
    (fun _ _ _ => .rfl) (.of_user (s.setPc_self q _) ((h.place q).free outside)) ?_
  rw [setPc_self]
  rfl

theorem Places.pass (frame : PassFrame s p c s' next) (at_ : s.pc p = .loop c)
    (others : ∀ q, q ≠ p → Still s.table s'.table q ∧
      ((s.proc q).state.alive → (s'.proc q).state.alive))
    (used : ∀ q, (s.proc q).state = .used → (s'.proc q).state = .used)
    (run : (s'.proc p).state = .running) : (s'.goOn p c next).Places := by
  have hold : ∀ lk, s.holder lk = some p ↔ lk = c.lk := by
    intro lk
    rw [← (h.place p).holds lk]
    simp [Holds, at_, eq_comm]
  have place : (s'.goOn p c next).Place p := by
    cases next with
    | again c' =>
      have lk := (frame.again c' rfl).1
      exact .of_locked (.inl (setPc_self ..)) run (by simp [goOn, frame.holder, hold, lk])
    | sleep c' =>
      obtain rfl := (frame.sleep c' rfl).1
      exact .of_locked (.inr (setPc_self ..)) run (by simp [goOn, frame.holder, hold])
    | ret r =>
      refine .of_user (r := r) (by simp [goOn]) fun lk => ?_
      rw [goOn, setHolder_holder, setPc_holder, frame.holder]
      split
      · simp
      next hne => exact mt (hold lk).mp hne
  have pc : ∀ q, q ≠ p → (s'.goOn p c next).pc q = s.pc q := by
    intro q hq
    cases next <;> simp [goOn, setPc_of_ne _ _ hq, frame.pc]
  have holder : ∀ q lk, q ≠ p → ((s'.goOn p c next).holder lk = some q ↔ s.holder lk = some q) := by
    intro q lk hq
    cases next with
    | again | sleep => simp [goOn, frame.holder]
    | ret r =>
      rw [goOn, setHolder_holder, setPc_holder, frame.holder]
      split
      next heq => rw [(hold lk).mpr heq]; simp [hq.symm]
      next => rfl
  have table : ∀ q, (s'.goOn p c next).proc q = s'.proc q := fun q => by simp [proc]
  refine h.own p (fun q hq => ⟨pc q hq, fun lk => holder q lk hq, ?_, ?_, ?_⟩) ?_ place ?_
  · rw [table]; exact (others q hq).2
  · rw [table]; exact (others q hq).1.1
  · rw [table]; exact (others q hq).1.2
  · intro q hq np hnp
    rw [table]
    exact used np ((h.place q).forks np hnp)
  · intro np hnp
    cases next <;> simp [goOn, Pc.forks] at hnp

theorem Places.user_of_dead (dead : (s.proc q).state.alive = false) :
    ∃ r, s.pc q = .user r := by
  cases hp : s.pc q with
  | user r => exact ⟨r, rfl⟩
  | _ => rw [(h.place q).alive (by rw [hp]; rfl)] at dead; cases dead

theorem Places.replace (np : Fin n) (dead : (s.proc np).state.alive = false)
    (unmade : (s.proc np).state ≠ .used) (pc : s'.pc = s.pc) (holder : s'.holder = s.holder)
    (others : ∀ q, q ≠ np → s'.proc q = s.proc q) : s'.Places := by
  obtain ⟨r, hr⟩ := h.user_of_dead dead
  refine h.own np (fun q hq => ⟨by rw [pc], fun lk => by rw [holder], ?_, ?_, ?_⟩) ?_ ?_ ?_
  · rw [others q hq]; exact id
  · rw [others q hq]; exact id
  · rw [others q hq]; exact fun hs => ⟨hs, rfl⟩
  · intro q _ np' hnp'
    have hused := (h.place q).forks np' hnp'
    rwa [others np' (fun he => unmade (he ▸ hused))]
  · refine .of_user (pc ▸ hr) fun lk => ?_
    rw [holder]
    exact (h.place np).free (by rw [hr]; rfl) lk
  · intro np' hnp'
    rw [pc, hr] at hnp'
    cases hnp'

theorem Places.replace_unused (unused : s.table.findUnused = some np) (pc : s'.pc = s.pc)
    (holder : s'.holder = s.holder) (others : ∀ q, q ≠ np → s'.proc q = s.proc q) : s'.Places := by
  have was : (s.proc np).state = .unused := Table.findUnused_some unused
  exact h.replace np (by rw [was]; rfl) (by rw [was]; nofun) pc holder others

theorem Places.forking (pid : UInt32) (free : s.Free p) (used : (s.proc np).state = .used)
    (fresh : ∀ q, (s.pc q).forks ≠ some np) : (s.setPc p (.forkParent np pid)).Places := by
  have out : (s.pc p).locked = false := by
    have := free.2
    cases hp : s.pc p <;> simp_all [Pc.isUser, Pc.locked]
  refine h.own p (fun q hq => ⟨s.setPc_of_ne _ hq, fun _ => .rfl, id, id, fun hs => ⟨hs, rfl⟩⟩)
    (fun q _ => (h.place q).forks) ?_ ?_
  · refine ⟨fun _ => ?_, ?_, fun lk => ?_, ?_, ?_⟩
    · rw [setPc_proc, free.1]; rfl
    · simp [Pc.locked]
    · simp [Holds, (h.place p).free out lk]
    · simp
    · simp only [setPc_self, Pc.forks, Option.some.injEq, setPc_proc]
      rintro _ rfl
      exact used
  · simp only [setPc_self, Pc.forks, Option.some.injEq]
    rintro _ rfl q _
    exact fresh q

theorem Places.fork (free : s.Free p) (mem copy : Bool) :
    (s.fork p mem copy).Places := by
  unfold State.fork
  rcases s.table.allocproc_cases mem with hc | ⟨np, hf, hc⟩
  · rw [hc]
    exact h.user (.inr free.2)
  have taken : ∀ q, q ≠ np → (s.table.take np).proc q = s.table.proc q := fun q hq => by
    rw [Table.take_proc, if_neg hq]
  have freed : ({ s with table := (s.table.take np).freeproc np } : State n).Places :=
    h.replace_unused hf rfl rfl fun q hq => by
      rw [proc, Table.freeproc_proc, if_neg hq, taken q hq]; rfl
  rcases hc with hc | hc <;> simp only [hc]
  · exact freed.user (.inr free.2)
  cases copy with
  | false => exact freed.user (.inr free.2)
  | true =>
    have unused : (s.proc np).state = .unused := Table.findUnused_some hf
    have ne : p ≠ np := by rintro rfl; rw [free.1] at unused; cases unused
    have fresh : ∀ q, (s.pc q).forks ≠ some np := by
      intro q hq
      rw [(h.place q).forks np hq] at unused
      cases unused
    have made : ({ s with
        table := s.table.take np
        forker := Function.update s.forker ((s.table.take np).birth np)
          (some ((s.table.take np).birth p)) } : State n).Places :=
      h.replace_unused hf rfl rfl taken
    obtain ⟨r, hr⟩ := h.user_of_dead (q := np) (by rw [unused]; rfl)
    have ready := made.user (q := np) (r := .val 0) (.inr (congrArg Pc.isUser hr))
    refine ready.forking _ ⟨?_, ?_⟩ ?_ fun q => ?_
    · exact (congrArg Proc.state (taken p ne)).trans free.1
    · rw [setPc_of_ne _ _ ne]; exact free.2
    · rw [setPc_proc, proc, Table.take_proc, if_pos rfl]
    · by_cases hq : q = np
      · subst hq; simp [Pc.forks]
      · rw [setPc_of_ne _ _ hq]; exact fresh q

theorem Places.threadCreate (free : s.Free p) (args mem : Bool) :
    (s.threadCreate p args mem).Places := by
  unfold State.threadCreate
  cases args with
  | false => exact h.user (.inr free.2)
  | true =>
    rcases s.table.allocthread_cases p mem with hc | ⟨np, hf, hc | hc⟩ <;>
      simp only [hc, if_true]
    · exact h.user (.inr free.2)
    · refine Places.user ?_ (.inr free.2)
      refine h.replace_unused hf rfl rfl fun q hq => ?_
      simp [proc, Table.freeproc_proc, Table.takeThread_proc, hq]
    · have unused : (s.proc np).state = .unused := Table.findUnused_some hf
      have ne : p ≠ np := by rintro rfl; rw [free.1] at unused; cases unused
      obtain ⟨r, hr⟩ := h.user_of_dead (q := np) (by rw [unused]; rfl)
      refine Places.user ?_ (.inr ?_)
      · refine Places.user ?_ (.inr (congrArg Pc.isUser hr))
        refine h.replace_unused hf rfl rfl fun q hq => ?_
        simp [proc, Table.set_proc, Table.takeThread_proc, hq]
      · rw [setPc_of_ne _ _ ne]; exact free.2

theorem Places.threadJoin (free : s.Free p) (retval : Bool) (io : Copies) :
    (s.threadJoin p retval io).Places := by
  unfold State.threadJoin
  split
  · exact h.user (.inr free.2)
  next pp hf =>
    split
    · exact h.user (.inr free.2)
    · have zombie : (s.proc pp).state = .zombie := (Table.findThread_some hf).2
      have freed : ({ s with table := s.table.freeproc pp } : State n).Places :=
        h.replace pp (by rw [zombie]; rfl) (by rw [zombie]; nofun) rfl rfl fun q hq => by
          rw [proc, Table.freeproc_proc, if_neg hq]; rfl
      have ne : p ≠ pp := by rintro rfl; rw [free.1] at zombie; cases zombie
      have run : (((s.table.freeproc pp).proc p)).state = .running := by
        rw [Table.freeproc_proc, if_neg ne]; exact free.1
      have out : (s.pc p).locked = false := by
        have := free.2
        cases hp : s.pc p <;> simp_all [Pc.isUser, Pc.locked]
      refine freed.calm p (.refl _) (fun q hq => setPc_of_ne _ _ hq) (fun _ _ => .refl _ _)
        (fun _ _ _ => .rfl) ⟨fun _ => ?_, ?_, fun lk => ?_, ?_, ?_⟩ (by simp [Pc.forks])
      · rw [setPc_proc, proc, run]; rfl
      · simp [Pc.locked]
      · simp [Holds, (h.place p).free out lk]
      · simp
      · simp [Pc.forks]

theorem Places.exit (free : s.Free p) (status : UInt32) :
    (s.exit p status).Places := by
  have hm := Table.Moved.handOver s.table p
  have others : ∀ q, q ≠ p → (s.exit p status).proc q = (s.table.handOver p).proc q := fun q hq => by
    rw [State.exit, proc, Table.exit_eq, Table.set_of_ne hq]
  refine h.own p (fun q hq => ⟨rfl, fun _ => .rfl, ?_, ?_, ?_⟩) ?_ ?_ ?_
  · rw [others q hq]
    rcases hm.state (q := q) with hs | ⟨-, hs⟩ <;> rw [hs]
    · exact id
    · exact fun _ => rfl
  · rw [others q hq]
    intro hrun
    rcases hm.state (q := q) with hs | ⟨hs, -⟩
    · exact hs.trans hrun
    · exact nomatch hrun.symm.trans hs
  · rw [others q hq]
    intro hsl
    refine ⟨?_, hm.chan⟩
    rcases hm.state (q := q) with hs | ⟨-, hs⟩
    · exact hs.symm.trans hsl
    · rw [hs] at hsl; cases hsl
  · intro q _ np hnp
    have hused := (h.place q).forks np hnp
    have ne : np ≠ p := by rintro rfl; rw [free.1] at hused; cases hused
    rw [others np ne]
    rcases hm.state (q := np) with hs | ⟨hs, -⟩
    · exact hs.trans hused
    · exact nomatch hused.symm.trans hs
  · obtain ⟨r, hr⟩ : ∃ r, s.pc p = .user r := by
      have := free.2
      cases hp : s.pc p <;> simp_all [Pc.isUser]
    exact .of_user hr fun lk => (h.place p).free (by rw [hr]; rfl) lk
  · intro np hnp q hq hq'
    exact hq (h.one q p np hq' hnp)

end

theorem Free.user (free : s.Free p) : ∃ r, s.pc p = .user r := by
  have := free.2
  cases hp : s.pc p <;> simp_all [Pc.isUser]

theorem Place.holder_iff (h : s.Place p) (at_ : s.pc p = .loop c ∨ s.pc p = .tested c)
    (lk : Lk) : s.holder lk = some p ↔ lk = c.lk := by
  rw [← h.holds lk]
  constructor
  · rintro ⟨c', rfl, hc⟩
    rcases at_ with at_ | at_ <;> rw [at_] at hc <;> simp_all
  · rintro rfl
    exact ⟨c, rfl, at_⟩

section

variable (h : s.Places)

include h

theorem Places.forkParent (at_ : s.pc p = .forkParent np pid) :
    ((s.setParent np p).setPc p (.forkRun np pid)).Places := by
  have same : ∀ q, ((s.setParent np p).proc q).state = (s.proc q).state ∧
      ((s.setParent np p).proc q).chan = (s.proc q).chan := by
    intro q
    rw [setParent, proc, Table.set_proc]
    split <;> simp_all [proc]
  have hp := h.place p
  refine h.own p (fun q hq => ⟨setPc_of_ne _ _ hq, fun _ => .rfl, ?_, ?_, ?_⟩) ?_ ?_ ?_
  · rw [setPc_proc, (same q).1]; exact id
  · rw [setPc_proc, (same q).1]; exact id
  · rw [setPc_proc, (same q).1, (same q).2]; exact fun hs => ⟨hs, rfl⟩
  · intro q _ np' hnp'
    rw [setPc_proc, (same np').1]
    exact (h.place q).forks np' hnp'
  · refine ⟨fun _ => ?_, by simp [Pc.locked], fun lk => ?_, by simp, ?_⟩
    · rw [setPc_proc, (same p).1]
      exact hp.alive (by rw [at_]; rfl)
    · exact iff_of_false (by simp [Holds]) (hp.free (by rw [at_]; rfl) lk)
    · intro np' hnp'
      rw [setPc_self] at hnp'
      rw [setPc_proc, (same np').1]
      exact hp.forks np' (by rwa [at_])
  · intro np' hnp' q hq hq'
    rw [setPc_self] at hnp'
    exact hq (h.one q p np' hq' (by rwa [at_]))

theorem Places.forkRun (at_ : s.pc p = .forkRun np pid) (r : Ret) :
    ((s.setState np .runnable).setPc p (.user r)).Places := by
  have used : (s.proc np).state = .used := (h.place p).forks np (by rw [at_]; rfl)
  have others : ∀ q, q ≠ np → (s.setState np .runnable).proc q = s.proc q := fun q hq => by
    rw [setState, proc, Table.set_of_ne hq]; rfl
  refine h.own p (fun q hq => ⟨setPc_of_ne _ _ hq, fun _ => .rfl, ?_, ?_, ?_⟩) ?_ ?_
    (by simp [Pc.forks])
  · by_cases hq' : q = np
    · subst hq'; rw [used]; exact nofun
    · rw [setPc_proc, others q hq']; exact id
  · by_cases hq' : q = np
    · subst hq'; rw [used]; exact nofun
    · rw [setPc_proc, others q hq']; exact id
  · by_cases hq' : q = np
    · subst hq'; simp [setState, proc]
    · rw [setPc_proc, others q hq']; exact fun hs => ⟨hs, rfl⟩
  · intro q hq np' hnp'
    have ne : np' ≠ np := by
      rintro rfl
      exact hq (h.one q p np' hnp' (by rw [at_]; rfl))
    rw [setPc_proc, others np' ne]
    exact (h.place q).forks np' hnp'
  · exact .of_user (setPc_self ..) fun lk => (h.place p).free (by rw [at_]; rfl) lk

theorem Places.acquire (at_ : s.pc p = .enter c) (run : (s.proc p).state = .running)
    (lock : s.holder c.lk = none) : ((s.setPc p (.loop c)).setHolder c.lk (some p)).Places := by
  have free := (h.place p).free (by rw [at_]; rfl)
  refine h.calm p (.refl _) (fun q hq => setPc_of_ne _ _ hq) (fun _ _ => .refl _ _) ?_ ?_
    (by simp [Pc.forks])
  · intro q lk hq
    rw [setHolder_holder, setPc_holder]
    split
    next heq => rw [heq, lock]; simp [hq.symm]
    next => rfl
  · refine .of_locked (.inl (setPc_self ..)) run fun lk => ?_
    rw [setHolder_holder, setPc_holder]
    split <;> simp_all

theorem Places.sleep (at_ : s.pc p = .tested c) (run : (s.proc p).state = .running) :
    (((s.sleep p (c.chan p)).setPc p (.asleep c)).setHolder c.lk none).Places := by
  have hold := (h.place p).holder_iff (.inr at_)
  refine h.calm p (Calm.sleep _ (by rw [run]; rfl)).table (fun q hq => setPc_of_ne _ _ hq)
    (fun q hq => .set hq) ?_ (.of_outside ?_ ?_ ?_ ?_ ?_) (by simp [Pc.forks])
  · intro q lk hq
    rw [setHolder_holder, setPc_holder]
    split
    next heq => simp [(hold lk).mpr heq, hq.symm]
    next => rfl
  · simp [State.sleep, proc, ProcState.alive]
  · simp [Pc.locked]
  · simp [Pc.forks]
  · intro lk
    rw [setHolder_holder, setPc_holder]
    split
    · nofun
    next hne => exact mt (hold lk).mp hne
  · simp [State.sleep, proc]

theorem Places.block (a : Nat) (at_ : s.pc p = .user r)
    (run : (s.proc p).state = .running) : ((s.sleep p (.other a)).setPc p (.blocked r)).Places := by
  refine h.calm p (Calm.sleep _ (by rw [run]; rfl)).table (fun q hq => setPc_of_ne _ _ hq)
    (fun q hq => .set hq) (fun _ _ _ => .rfl) (.of_outside ?_ ?_ ?_ ?_ ?_) (by simp [Pc.forks])
  · simp [State.sleep, proc, ProcState.alive]
  · simp [Pc.locked]
  · simp [Pc.forks]
  · exact (h.place p).free (by rw [at_]; rfl)
  · simp

theorem Places.move (table : s.table.Quiet (s.table.set p v)) (out : (s.pc p).locked = false)
    (alive : v.state.alive) (awake : v.state ≠ .sleeping) :
    ({ s with table := s.table.set p v } : State n).Places := by
  have mine : ({ s with table := s.table.set p v } : State n).proc p = v := Table.set_self
  refine h.own p (fun q hq => ⟨rfl, fun _ => .rfl, table.alive, ?_, ?_⟩)
    (fun q _ np hnp => table.used ((h.place q).forks np hnp)) ?_
    (fun np hnp q hq hq' => hq (h.one q p np hq' hnp))
  · exact (Still.set hq).1
  · exact (Still.set hq).2
  · refine ⟨fun _ => by rwa [mine], fun hl => ?_, (h.place p).holds, fun c _ hs => ?_,
      fun np hnp => table.used ((h.place p).forks np hnp)⟩
    · rw [show ({ s with table := s.table.set p v } : State n).pc p = s.pc p from rfl, out] at hl
      cases hl
    · rw [mine] at hs
      exact (awake hs).elim

theorem Places.enter (c : Call) (alive : (s.proc p).state.alive) (out : (s.pc p).locked = false) :
    (s.setPc p (.enter c)).Places := by
  refine h.calm p (.refl _) (fun q hq => setPc_of_ne _ _ hq) (fun _ _ => .refl _ _)
    (fun _ _ _ => .rfl) (.of_outside alive ?_ ?_ ((h.place p).free out) (by simp)) ?_ <;>
    simp [Pc.locked, Pc.forks]

theorem Places.back (r : Ret) (out : (s.pc p).locked = false) :
    (s.setPc p (.user r)).Places :=
  h.calm p (.refl _) (fun q hq => setPc_of_ne _ _ hq) (fun _ _ => .refl _ _)
    (fun _ _ _ => .rfl) (.of_user (setPc_self ..) ((h.place p).free out)) (by simp [Pc.forks])

theorem Places.pick (run : (s.proc p).state = .runnable) : (s.pick p).Places := by
  have out : (s.pc p).locked = false := by
    by_contra hl
    have := (h.place p).locked (by simpa using hl)
    rw [run] at this
    cases this
  have alive : (s.table.proc p).state.alive := by rw [proc] at run; rw [run]; rfl
  have moved : ∀ chan, ({ s with
      table := s.table.set p { s.proc p with state := .running, chan := chan } } : State n).Places :=
    fun chan => h.move (.set rfl rfl rfl rfl (.inr ⟨alive, rfl⟩)) out rfl nofun
  unfold State.pick
  split
  next c hc => exact (moved none).enter c (by simp [proc, ProcState.alive]) out
  next r hr => exact (moved none).back r out
  next => exact moved _

theorem Places.consoleintr (c : UInt8) (cur : Option (Fin n)) :
    (s.consoleintr c cur).Places := by
  refine h.env (Calm.consoleintr c cur).table ?_ ?_ fun q => ?_ <;> unfold State.consoleintr <;>
    dsimp only <;> repeat' split
  all_goals first
    | rfl
    | exact .refl _ _
    | exact .wakeup _ _ _ _
    | exact .setkilled _ _ _

theorem Places.passes (frame : PassFrame s p c s' next) (at_ : s.pc p = .loop c)
    (run : (s.proc p).state = .running) : (s'.goOn p c next).Places := by
  rcases frame.table with ⟨-, ht | ⟨chan, ht⟩⟩ | ⟨pp, -, hz, rfl, -⟩
  · refine h.pass frame at_ (fun q _ => ⟨?_, ?_⟩) (fun q => ?_) ?_ <;> simp only [proc, ht]
    · exact .refl _ _
    · exact id
    · exact id
    · exact run
  · have quiet : s.table.Quiet s'.table := ht ▸ .wakeup _ _ _
    refine h.pass frame at_ (fun q _ => ⟨ht ▸ .wakeup _ _ _ _, quiet.alive⟩) (fun q => quiet.used) ?_
    rw [proc, ht]
    exact (Still.wakeup _ _ _ _).1 run
  · have zombie : (s.table.proc pp).state = .zombie := (Table.findZombie_some hz).2
    have entry : ∀ q, (s.reap p pp).proc q = if q = pp then {} else s.proc q := fun q =>
      Table.freeproc_proc
    refine h.pass frame at_ (fun q _ => ?_) (fun q => ?_) ?_
    · by_cases hq : q = pp
      · subst hq
        simp [Still, zombie, proc, reap, Table.freeproc_proc, ProcState.alive]
      · refine ⟨.set hq, ?_⟩
        rw [entry, if_neg hq]
        exact id
    · rw [entry]
      split
      next hq => subst hq; rw [proc, zombie]; exact nofun
      next => exact id
    · rw [entry, if_neg]
      · exact run
      · rintro rfl
        rw [proc, zombie] at run
        cases run

theorem Places.step (st : Step s l s') : s'.Places := by
  have out : ∀ {p}, s.Free p → (s.pc p).locked = false := fun free => by
    obtain ⟨r, hr⟩ := free.user
    rw [hr]
    rfl
  cases st with
  | fork free => exact h.fork free _ _
  | forkParent at_ run lock => exact h.forkParent at_
  | forkRun at_ run => exact h.forkRun at_ _
  | exit free init lock => exact h.exit free _
  | kill free =>
    refine Places.user ?_ (.inr free.2)
    exact h.env (.kill _ _) rfl rfl fun q => .kill _ _ _
  | setkilled free =>
    exact h.env (.set rfl rfl rfl rfl (.inl rfl)) rfl rfl fun q => .setkilled _ _ _
  | call free starts => exact h.enter _ (by rw [free.1]; rfl) (out free)
  | acquire at_ run lock => exact h.acquire at_ run lock
  | pass at_ run eq => exact h.passes (pass_frame eq) at_ run
  | sleep at_ run => exact h.sleep at_ run
  | block at_ run => exact h.block _ at_ run
  | wake | clockintr => exact h.env (.wakeup _ _ _) rfl rfl fun q => .wakeup _ _ _ _
  | pick run => exact h.pick run
  | yield run =>
    refine h.move (Calm.setState _ ?_ rfl).table (by simpa using run.2) rfl nofun
    rw [run.1]
    rfl
  | consoleintr lock run => exact h.consoleintr _ _
  | pipealloc read write idle => exact h.env (.refl _) rfl rfl fun q => .refl _ _
  | pipeclose lock idle =>
    refine h.env (Calm.pipeclose _ _).table ?_ ?_ fun q => ?_ <;> unfold State.pipeclose <;> split
    all_goals first
      | rfl
      | exact .wakeup _ _ _ _
  | threadCreate free => exact h.threadCreate free _ _
  | threadJoin free => exact h.threadJoin free _ _
  | joined at_ run => exact h.back _ (by rw [at_]; rfl)

end

end State

theorem places [NeZero n] {ok : State n → Label n → Prop} {s : State n} (run : Reach ok s) :
    s.Places := by
  refine run.invariant ⟨fun q => .of_user rfl nofun, nofun⟩ fun s l s' h _ hstep => ?_
  exact h.step (step_sound hstep)

end Xv6.Kernel
