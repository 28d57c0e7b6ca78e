import Xv6.Sched.System

/-! No wakeup is lost. -/

namespace Xv6.Sched

open Transition Kernel
open Function (update update_apply update_of_ne update_self)

variable {n : Nat} {κ χ : Type}

namespace Pc

@[simp] def owns : Pc n χ → Bool
  | sleepRelease _ | sleepSet _ | sched _ | back _ | sleepUnlock _ | yieldSet => true
  | _ => false

@[simp] def active : Pc n χ → Bool
  | sched _ | out _ => false
  | _ => true

/-- The process whose lock `wakeup` holds. -/
@[simp] def scans : Pc n χ → Option (Fin n)
  | wakeTest _ i | wakeRelease _ i => some i
  | _ => none

/-- In `sleep`, before the lock is given up. -/
@[simp] def entering : Pc n χ → Bool
  | sleepAcquire _ | sleepRelease _ => true
  | _ => false

/-- In `sleep`, before the state is changed. -/
@[simp] def pre : Pc n χ → Bool
  | sleepAcquire _ | sleepRelease _ | sleepSet _ => true
  | _ => false

/-- In `sleep`, between giving up the lock and being picked again. -/
@[simp] def falls : Pc n χ → Option χ
  | sleepSet chan | sched (.sleep chan) | out (.sleep chan) => some chan
  | _ => none

/-- The channel and how many entries `wakeup` has looked at. -/
@[simp] def visited : Pc n χ → Option (χ × Nat)
  | wakeAcquire chan i => some (chan, i)
  | wakeTest chan i => some (chan, i.val)
  | wakeRelease chan i => some (chan, i.val + 1)
  | _ => none

end Pc

/-- What the place of the process `q` says about its state and the locks. -/
structure Place (lockOf : χ → κ) (s : State n κ χ) (q : Fin n) : Prop where
  own : (s.pc q).owns → s.plock q = some (.proc q)
  scan : ∀ i, (s.pc q).scans = some i → s.plock i = some (.proc q) ∧ i ≠ q
  sleeping : s.state q = .sleeping →
    ∃ chan, (s.pc q = .sched (.sleep chan) ∨ s.pc q = .out (.sleep chan)) ∧ s.chan q = some chan
  running : (s.pc q).active → s.state q = .running
  apart : ∀ chan, (s.pc q).gaveUp = some chan → s.lk (lockOf chan) ≠ some q

structure Places (lockOf : χ → κ) (s : State n κ χ) : Prop where
  place : ∀ q, Place lockOf s q
  cpu : ∀ c i, s.cpu c = .test i ∨ s.cpu c = .release i → s.plock i = some (.cpu c)

section

variable {lockOf : χ → κ} {s s' : State n κ χ} {p q : Fin n} {c : Nat} {pc : Pc n χ}

theorem Place.steady (h : Place lockOf s q) (pc : s'.pc q = s.pc q)
    (plock : ∀ i, s.plock i = some (.proc q) → s'.plock i = some (.proc q))
    (sleep : s'.state q = .sleeping → s.state q = .sleeping) (chan : s'.chan q = s.chan q)
    (run : s.state q = .running → s'.state q = .running)
    (lk : ∀ k, s'.lk k = some q → s.lk k = some q) : Place lockOf s' q where
  own hq := plock q (h.own (pc ▸ hq))
  scan i hi := by
    obtain ⟨hl, hne⟩ := h.scan i (pc ▸ hi)
    exact ⟨plock i hl, hne⟩
  sleeping hq := by
    rw [pc, chan]
    exact h.sleeping (sleep hq)
  running hq := run (h.running (pc ▸ hq))
  apart ch hq hl := h.apart ch (pc ▸ hq) (lk _ hl)

/-- A step of the process `p`, or of the scheduler that runs or stops it, changes the place of no
other process, may wake others, and takes the locks of processes only where they are free or held by
`who`. -/
theorem Places.own (h : Places lockOf s) (p : Fin n) (who : Holder n)
    (pc : ∀ q, q ≠ p → s'.pc q = s.pc q)
    (state : ∀ q, q ≠ p → s'.state q = s.state q ∨
      s.state q = .sleeping ∧ s'.state q = .runnable)
    (chan : ∀ q, q ≠ p → s'.chan q = s.chan q)
    (plock : ∀ i, s'.plock i = s.plock i ∨ s.plock i = none ∨ s.plock i = some who)
    (whose : ∀ q, q ≠ p → who ≠ .proc q) (lk : ∀ k q, q ≠ p → s'.lk k = some q → s.lk k = some q)
    (cpu : ∀ c i, s'.cpu c = .test i ∨ s'.cpu c = .release i →
      s'.plock i = some (.cpu c) ∨ (s.cpu c = .test i ∨ s.cpu c = .release i) ∧ who ≠ .cpu c)
    (place : Place lockOf s' p) : Places lockOf s' := by
  have kept : ∀ i o, who ≠ o → s.plock i = some o → s'.plock i = some o := by
    intro i o ho hi
    rcases plock i with hs | hs | hs
    · rw [hs, hi]
    · rw [hs] at hi; cases hi
    · rw [hs] at hi; cases hi; exact (ho rfl).elim
  refine ⟨fun q => ?_, fun c i hc => ?_⟩
  · by_cases hq : q = p
    · rwa [hq]
    · refine (h.place q).steady (pc q hq) (fun i => kept i _ (whose q hq)) (fun hs => ?_) (chan q hq)
        (fun hs => ?_) (fun k => lk k q hq)
      · rcases state q hq with he | ⟨-, he⟩ <;> rw [he] at hs
        · exact hs
        · cases hs
      · rcases state q hq with he | ⟨he, -⟩
        · exact he.trans hs
        · rw [he] at hs; cases hs
  · rcases cpu c i hc with hn | ⟨ho, hne⟩
    · exact hn
    · exact kept i _ hne (h.cpu c i ho)

theorem Places.proc (h : Places lockOf s) (p : Fin n) (pc : ∀ q, q ≠ p → s'.pc q = s.pc q)
    (state : ∀ q, q ≠ p → s'.state q = s.state q) (chan : ∀ q, q ≠ p → s'.chan q = s.chan q)
    (plock : ∀ i, s'.plock i = s.plock i ∨ s.plock i = none ∨ s.plock i = some (.proc p))
    (cpu : s'.cpu = s.cpu) (lk : ∀ k q, q ≠ p → s'.lk k = some q → s.lk k = some q)
    (place : Place lockOf s' p) : Places lockOf s' :=
  h.own p (.proc p) pc (fun q hq => .inl (state q hq)) chan plock
    (fun q hq he => hq (by cases he; rfl)) lk (fun c i hc => .inr ⟨cpu ▸ hc, nofun⟩) place

theorem Places.runs (h : Places lockOf s) (at_ : s.pc p = pc) (active : pc.active) :
    s.state p = .running := (h.place p).running (at_ ▸ active)

theorem Places.owns (h : Places lockOf s) (at_ : s.pc p = pc) (owns : pc.owns) :
    s.plock p = some (.proc p) := (h.place p).own (at_ ▸ owns)

theorem other {α : Type} (f : Fin n → α) (v : α) :
    ∀ q, q ≠ p → update f p v q = f q := fun _ hq => update_of_ne hq ..

theorem plock_update (j : Fin n) (o : Option (Holder n))
    (h : s.plock j = none ∨ s.plock j = some who) (i : Fin n) :
    update s.plock j o i = s.plock i ∨ s.plock i = none ∨ s.plock i = some who := by
  by_cases hij : i = j
  · subst hij; exact .inr h
  · exact .inl (update_of_ne hij ..)

variable [DecidableEq κ]

theorem lk_update (h : ∀ q, q ≠ p → o ≠ some q) (hq : q ≠ p)
    (hl : update s.lk k o k' = some q) : s.lk k' = some q := by
  rw [update_apply] at hl
  split at hl
  · exact (h q hq hl).elim
  · exact hl

omit [DecidableEq κ] in
theorem Places.turn (h : Places lockOf s) (lock : s.plock i = none ∨ s.plock i = some (.cpu c))
    (new : ∀ j, v = .test j ∨ v = .release j → j = i ∧ o = some (.cpu c)) :
    Places lockOf ((s.setPlock i o).setCpu c v) := by
  refine h.own i (.cpu c) (fun _ _ => rfl) (fun _ _ => .inl rfl) (fun _ _ => rfl)
    (plock_update i o lock) (fun _ _ => nofun) (fun _ _ _ => id) (fun c' j hc => ?_) ?_
  · simp only [State.setCpu, State.setPlock, update_apply] at hc ⊢
    split at hc
    next hcc =>
      obtain ⟨hj, ho⟩ := new j hc
      exact .inl (by rw [if_pos hj, ho, hcc])
    next hne => exact .inr ⟨hc, fun he => hne (by cases he; rfl)⟩
  · refine (h.place i).steady rfl (fun j hj => ?_) id rfl id (fun _ => id)
    rw [← hj]
    refine update_of_ne ?_ ..
    rintro rfl
    rcases lock with hl | hl <;> rw [hl] at hj <;> cases hj

variable [NeZero n] [DecidableEq χ] {w : Fin n} {chan : χ}

attribute [simp] State.setPc State.setState State.setChan State.setPlock State.setCpu State.acquire
  State.release State.woke Pc.gaveUp

theorem Places.step (h : Places lockOf s) (st : Step lockOf s s') : Places lockOf s' := by
  cases st with
  | @acquire p k at_ lock =>
    have hp := h.place p
    refine h.proc p (fun _ _ => rfl) (fun _ _ => rfl) (fun _ _ => rfl) (fun _ => .inl rfl) rfl
      (fun _ _ => lk_update (by simp [eq_comm]))
      ⟨hp.own, hp.scan, hp.sleeping, hp.running, fun chan hg => ?_⟩
    rw [show (s.acquire lockOf p k).pc p = .run from at_] at hg
    cases hg
  | @release p k at_ lock =>
    have hp := h.place p
    refine h.proc p (fun _ _ => rfl) (fun _ _ => rfl) (fun _ _ => rfl) (fun _ => .inl rfl) rfl
      (fun _ _ => lk_update (by simp))
      ⟨hp.own, hp.scan, hp.sleeping, hp.running, fun chan hg => ?_⟩
    rw [show (s.release p k).pc p = .run from at_] at hg
    cases hg
  | sleep at_ | wakeup at_ | yield at_ | wakeSkip at_ | wakeDone at_ =>
    have run := h.runs at_ rfl
    refine h.proc _ (other _ _) (fun _ _ => rfl) (fun _ _ => rfl) (fun _ => .inl rfl) rfl
      (fun _ _ _ => id) ?_
    constructor <;> simp [run]
  | sleepAcquire at_ lock | yieldAcquire at_ lock =>
    have run := h.runs at_ rfl
    refine h.proc _ (other _ _) (fun _ _ => rfl) (fun _ _ => rfl)
      (plock_update _ _ (.inl lock)) rfl (fun _ _ _ => id) ?_
    constructor <;> simp [run]
  | @sleepRelease p chan at_ =>
    have run := h.runs at_ rfl
    have own := h.owns at_ rfl
    refine h.proc p (other _ _) (fun _ _ => rfl) (fun _ _ => rfl) (fun _ => .inl rfl) rfl
      (fun _ _ => lk_update (by simp)) ?_
    constructor <;> simp [run, own]
  | @sleepSet p chan at_ =>
    have own := h.owns at_ rfl
    have apart := (h.place p).apart chan (by rw [at_]; rfl)
    refine h.proc p (other _ _) (other _ _) (other _ _) (fun _ => .inl rfl) rfl
      (fun _ _ _ => id) ?_
    constructor <;> simp [own, apart]
  | @sched p c why at_ on =>
    have hp := h.place p
    have own := hp.own (by rw [at_]; rfl)
    refine h.own p (.proc p) (other _ _) (fun _ _ => .inl rfl) (fun _ _ => rfl)
      (plock_update p _ (.inr own)) (fun q hq he => hq (by cases he; rfl)) (fun _ _ _ => id)
      (fun c' i hc => ?_) ⟨?_, ?_, fun hs => ?_, ?_, fun chan hg => ?_⟩
    · simp only [State.setPc, State.setCpu, State.setPlock, update_apply] at hc ⊢
      split at hc
      · left; simp_all
      · exact .inr ⟨hc, nofun⟩
    · simp
    · simp
    · obtain ⟨chan, hpc | hpc, hchan⟩ := hp.sleeping hs <;> rw [at_] at hpc <;> cases hpc
      exact ⟨chan, by simp, hchan⟩
    · simp
    · refine hp.apart chan ?_
      rw [at_]
      simp only [State.setPc, update_self] at hg
      cases why with
      | sleep chan' => exact hg
      | yield => cases hg
      | start => cases hg
  | @backSleep p chan at_ =>
    have run := h.runs at_ rfl
    have own := h.owns at_ rfl
    have apart := (h.place p).apart chan (by rw [at_]; rfl)
    refine h.proc p (other _ _) (fun _ _ => rfl) (other _ _) (fun _ => .inl rfl) rfl
      (fun _ _ _ => id) ?_
    constructor <;> simp [run, own, apart]
  | @back p why at_ awake =>
    have run := h.runs at_ rfl
    have own := h.owns at_ rfl
    refine h.proc p (other _ _) (fun _ _ => rfl) (fun _ _ => rfl) (plock_update p _ (.inr own)) rfl
      (fun _ _ _ => id) ?_
    constructor <;> simp [run]
  | @sleepUnlock p chan at_ =>
    have run := h.runs at_ rfl
    have own := h.owns at_ rfl
    have apart := (h.place p).apart chan (by rw [at_]; rfl)
    refine h.proc p (other _ _) (fun _ _ => rfl) (fun _ _ => rfl) (plock_update p _ (.inr own)) rfl
      (fun _ _ _ => id) ?_
    constructor <;> simp [run, apart]
  | @sleepRelock p chan at_ lock =>
    have run := h.runs at_ rfl
    refine h.proc p (other _ _) (fun _ _ => rfl) (fun _ _ => rfl) (fun _ => .inl rfl) rfl
      (fun _ _ => lk_update (by simp [eq_comm])) ?_
    constructor <;> simp [run]
  | @yieldSet p at_ =>
    have own := h.owns at_ rfl
    refine h.proc p (other _ _) (other _ _) (fun _ _ => rfl) (fun _ => .inl rfl) rfl
      (fun _ _ _ => id) ?_
    constructor <;> simp [own]
  | @wakeAcquire p chan i at_ ne lock =>
    have run := h.runs at_ rfl
    refine h.proc p (other _ _) (fun _ _ => rfl) (fun _ _ => rfl)
      (plock_update i _ (.inl lock)) rfl (fun _ _ _ => id) ?_
    constructor <;> simp [run, ne]
  | @wakeSleeper p chan i at_ asleep on =>
    have run := h.runs at_ rfl
    obtain ⟨held, ne⟩ := (h.place p).scan i (by rw [at_]; rfl)
    refine h.own p (.proc p) (other _ _) (fun q hq => ?_) (fun _ _ => rfl) (fun _ => .inl rfl)
      (fun q hq he => hq (by cases he; rfl)) (fun _ _ _ => id) (fun c i hc => .inr ⟨hc, nofun⟩) ?_
    · simp only [State.setState, State.setPc, update_apply]
      split
      next hqi => exact .inr ⟨hqi ▸ asleep, rfl⟩
      next => exact .inl rfl
    · constructor <;>
        simp [run, held, ne, ne.symm]
  | @wakeOther p chan i at_ other' =>
    have run := h.runs at_ rfl
    obtain ⟨held, ne⟩ := (h.place p).scan i (by rw [at_]; rfl)
    refine h.proc p (other _ _) (fun _ _ => rfl) (fun _ _ => rfl) (fun _ => .inl rfl) rfl
      (fun _ _ _ => id) ?_
    constructor <;> simp [run, held, ne]
  | @wakeRelease p chan i at_ =>
    have run := h.runs at_ rfl
    obtain ⟨held, ne⟩ := (h.place p).scan i (by rw [at_]; rfl)
    refine h.proc p (other _ _) (fun _ _ => rfl) (fun _ _ => rfl)
      (plock_update i _ (.inr held)) rfl (fun _ _ _ => id) ?_
    constructor <;> simp [run]
  | @cpuAcquire c i on lock =>
    refine h.turn (.inl lock) ?_
    rintro j (hj | hj) <;> cases hj
    exact ⟨rfl, rfl⟩
  | @pick c i why on ready at_ =>
    have held := h.cpu c i (.inl on)
    have hi := h.place i
    refine h.own i (.cpu c) (other _ _) (fun q hq => .inl (other _ _ q hq)) (fun _ _ => rfl)
      (plock_update i _ (.inr held)) (fun _ _ => nofun) (fun _ _ _ => id) (fun c' j hc => ?_)
      ⟨?_, ?_, ?_, ?_, fun chan hg => ?_⟩
    · simp only [State.setPc, State.setCpu, update_apply] at hc
      split at hc
      next => rcases hc with hc | hc <;> cases hc
      next hne => exact .inr ⟨hc, fun he => hne (by cases he; rfl)⟩
    · simp
    · simp
    · simp
    · simp
    · refine hi.apart chan ?_
      rw [at_]
      simp only [State.setPc, update_self] at hg
      cases why with
      | sleep chan' => exact hg
      | yield => cases hg
      | start => cases hg
  | @cpuPass c i on =>
    have held := h.cpu c i (.inl on)
    have same : s.setPlock i (s.plock i) = s := by simp
    rw [← same]
    refine h.turn (.inr held) ?_
    rintro j (hj | hj) <;> cases hj
    exact ⟨rfl, held⟩
  | @cpuRelease c i on =>
    refine h.turn (.inr (h.cpu c i (.inr on))) ?_
    rintro j (hj | hj) <;> cases hj

theorem places (run : Reach lockOf live s) : Places lockOf s := by
  refine run.invariant (I := Places lockOf) ⟨fun q => ⟨nofun, nofun, ?_, nofun, nofun⟩, ?_⟩
    fun s l s' h _ hs => h.step (step_sound hs)
  · intro hq
    simp only [boot] at hq
    split at hq <;> cases hq
  · rintro c i (hc | hc) <;> cases hc

/-- How a step that is not a call of `sleep` by `q` can change where `q` stands in its call. -/
structure Moves (s s' : State n κ χ) (q : Fin n) : Prop where
  calls : s'.calls q = s.calls q
  sleep : s'.state q = .sleeping → s.state q = .sleeping ∨ (s.pc q).pre
  pre : (s'.pc q).pre → (s.pc q).pre
  entering : (s'.pc q).entering → (s.pc q).entering
  falls : ∀ chan, (s'.pc q).falls = some chan → (s.pc q).falls = some chan ∨ (s.pc q).entering

omit [DecidableEq κ] [NeZero n] [DecidableEq χ] in
theorem Moves.of_pc (pc : s'.pc q = s.pc q) (calls : s'.calls q = s.calls q)
    (sleep : s'.state q = .sleeping → s.state q = .sleeping) : Moves s s' q :=
  ⟨calls, fun h => .inl (sleep h), pc ▸ id, pc ▸ id, fun _ h => .inl (pc ▸ h)⟩

theorem Step.moves (st : Step lockOf s s') (q : Fin n) :
    s'.calls q = s.calls q + 1 ∨ Moves s s' q := by
  cases st with
  | @sleep p chan at_ lock =>
    by_cases hq : q = p
    · subst hq
      exact .inl (by simp)
    · exact .inr (.of_pc (other _ _ q hq) (other _ _ q hq) id)
  | acquire | release | cpuAcquire | cpuPass | cpuRelease => exact .inr (.of_pc rfl rfl id)
  | @wakeSleeper p chan i at_ asleep on =>
    have woken : update s.state i .runnable q = .sleeping → s.state q = .sleeping := by
      rw [update_apply]
      split
      · exact nofun
      · exact id
    right
    by_cases hq : q = p
    · subst hq
      exact ⟨rfl, fun h => .inl (woken h), by simp,
        by simp, by simp⟩
    · exact .of_pc (other _ _ q hq) rfl woken
  | @pick c p why on ready at_ =>
    right
    by_cases hq : q = p
    · subst hq
      constructor <;> simp
    · exact .of_pc (other _ _ q hq) rfl (by simp [hq])
  | @sched p _ why at_ on =>
    right
    by_cases hq : q = p
    · subst hq
      refine ⟨rfl, .inl, by simp, by simp,
        fun chan h => ?_⟩
      rw [at_]
      cases why <;> simp_all
    · exact .of_pc (other _ _ q hq) rfl id
  | @wakeup p _ at_ | @yield p at_ | @sleepAcquire p _ at_ | @sleepRelease p _ at_
  | @sleepSet p _ at_ | @backSleep p _ at_ | @back p _ at_ | @sleepUnlock p _ at_
  | @sleepRelock p _ at_ | @yieldAcquire p at_ | @yieldSet p at_ | @wakeSkip p _ at_
  | @wakeAcquire p _ _ at_ | @wakeDone p _ _ at_ | @wakeOther p _ _ at_ | @wakeRelease p _ _ at_ =>
    right
    by_cases hq : q = p
    · subst hq
      constructor <;> simp +contextual [at_]
    · refine .of_pc (other _ _ q hq) rfl ?_
      simp +contextual [hq]

/-- The call `c` of `sleep` by `q` is over, or `q` has been woken in it. -/
def Past (s : State n κ χ) (q : Fin n) (c : Nat) : Prop :=
  c < s.calls q ∨ c = s.calls q ∧ s.state q ≠ .sleeping ∧ (s.pc q).pre = false

theorem Past.step (h : Past s q c) (st : Step lockOf s s') : Past s' q c := by
  rcases st.moves q with hc | hm
  · left
    rw [hc]
    rcases h with hlt | ⟨rfl, -⟩ <;> omega
  · rcases h with hlt | ⟨rfl, awake, hpre⟩
    · exact .inl (hm.calls ▸ hlt)
    · refine .inr ⟨hm.calls.symm, fun hs => ?_, ?_⟩
      · rcases hm.sleep hs with hs | hs
        · exact awake hs
        · rw [hpre] at hs; cases hs
      · by_contra hs
        rw [hm.pre (by simpa using hs)] at hpre
        cases hpre

/-- The calls of `sleep` recorded at an acquire have given up the lock; those that a `wakeup` has
passed, or that were recorded for one that has returned, are past. -/
structure Calls (lockOf : χ → κ) (s : State n κ χ) : Prop where
  gave : ∀ {w k q chan c}, s.gave w k q = some (chan, c) → c ≤ s.calls q ∧
    (c = s.calls q → (s.pc q).entering = false ∧ ∀ ch, (s.pc q).falls = some ch → ch = chan)
  scan : ∀ {w chan i}, (s.pc w).visited = some (chan, i) → ∀ q : Fin n, q.val < i →
    ∀ c, s.gave w (lockOf chan) q = some (chan, c) → Past s q c
  done : ∀ q c, s.done q c = true → Past s q c

omit [NeZero n] [DecidableEq χ] in
theorem State.acquire_gave (h : (s.acquire lockOf p k').gave w k q = some (chan, c)) :
    s.gave w k q = some (chan, c) ∨ (s.pc q).gaveUp = some chan ∧ c = s.calls q ∧ w = p := by
  by_cases hw : w = p
  · subst hw
    by_cases hk : k = k'
    · subst hk
      simp only [State.acquire, update_self] at h
      obtain ⟨ch, hf, he⟩ := Option.map_eq_some_iff.mp h
      obtain ⟨rfl, rfl⟩ := Prod.mk.inj he
      exact .inr ⟨(Option.filter_eq_some_iff.mp hf).1, rfl, rfl⟩
    · exact .inl (by simpa [hk] using h)
  · exact .inl (by simpa [hw] using h)

theorem Step.gave (st : Step lockOf s s')
    (h : s'.gave w k q = some (chan, c)) : s.gave w k q = some (chan, c) ∨
      (s.pc q).gaveUp = some chan ∧ c = s.calls q ∧ (s'.pc w).visited = none := by
  cases st with
  | @acquire p k' at_ lock =>
    refine (State.acquire_gave h).imp id fun ⟨hg, hc, hw⟩ => ⟨hg, hc, ?_⟩
    subst hw
    exact congrArg Pc.visited at_
  | @sleepRelock p ch at_ lock =>
    refine (State.acquire_gave h).imp id fun ⟨hg, hc, hw⟩ => ⟨hg, hc, ?_⟩
    subst hw
    simp
  | _ => exact .inl h

omit [DecidableEq κ] [NeZero n] [DecidableEq χ] in
theorem State.visited_of_setPc (hw : w ≠ p)
    (h : ((s.setPc p pc).pc w).visited = v) : (s.pc w).visited = v := by
  simpa [hw] using h

/-- How a `wakeup` comes to have passed the entries below `i`. -/
theorem Step.visited (st : Step lockOf s s')
    (h : (s'.pc w).visited = some (chan, i)) : (s.pc w).visited = some (chan, i) ∨ i = 0 ∨
      ∃ j : Fin n, i = j.val + 1 ∧ (s.pc w).visited = some (chan, j.val) ∧
        (j = w ∨ s.pc w = .wakeTest chan j ∧
          (s'.state j = .sleeping → s.state j = .sleeping ∧ s.chan j ≠ some chan)) := by
  cases st with
  | acquire | release | cpuAcquire | cpuPass | cpuRelease => exact .inl h
  | @yield p at_ | @sleepAcquire p _ at_ | @sleepRelease p _ at_ | @sleepSet p _ at_
  | @backSleep p _ at_ | @back p _ at_ | @sleepUnlock p _ at_ | @sleepRelock p _ at_
  | @yieldAcquire p at_ | @yieldSet p at_ | @sched p _ _ at_ | @wakeDone p _ _ at_ | @sleep p _ at_
  | @pick _ p _ _ _ at_ =>
    by_cases hw : w = p
    · subst hw
      simp at h
    · exact .inl (State.visited_of_setPc hw h)
  | @wakeup p _ at_ | @wakeAcquire p _ _ at_ | @wakeRelease p _ _ at_ =>
    by_cases hw : w = p
    · subst hw
      simp only [State.setPc, update_self, Pc.visited, Option.some.injEq,
        Prod.mk.injEq] at h
      obtain ⟨rfl, rfl⟩ := h
      simp [at_]
    · exact .inl (State.visited_of_setPc hw h)
  | @wakeSkip p ch at_ =>
    by_cases hw : w = p
    · subst hw
      simp only [State.setPc, update_self, Pc.visited, Option.some.injEq,
        Prod.mk.injEq] at h
      obtain ⟨rfl, rfl⟩ := h
      exact .inr (.inr ⟨w, rfl, congrArg Pc.visited at_, .inl rfl⟩)
    · exact .inl (State.visited_of_setPc hw h)
  | @wakeSleeper p ch j at_ asleep on =>
    by_cases hw : w = p
    · subst hw
      simp only [State.setPc, update_self, Pc.visited, Option.some.injEq,
        Prod.mk.injEq] at h
      obtain ⟨rfl, rfl⟩ := h
      exact .inr (.inr ⟨j, rfl, congrArg Pc.visited at_, .inr ⟨at_, by
        simp⟩⟩)
    · exact .inl (State.visited_of_setPc hw h)
  | @wakeOther p ch j at_ other =>
    by_cases hw : w = p
    · subst hw
      simp only [State.setPc, update_self, Pc.visited, Option.some.injEq,
        Prod.mk.injEq] at h
      obtain ⟨rfl, rfl⟩ := h
      exact .inr (.inr ⟨j, rfl, congrArg Pc.visited at_, .inr ⟨at_, fun hs =>
        ⟨hs, fun hc => other ⟨hs, hc⟩⟩⟩⟩)
    · exact .inl (State.visited_of_setPc hw h)

theorem Step.done (st : Step lockOf s s') (h : s'.done q c = true) : s.done q c = true ∨
    ∃ w chan i, s.pc w = .wakeAcquire chan i ∧ n ≤ i ∧
      s.gave w (lockOf chan) q = some (chan, c) := by
  cases st with
  | @wakeDone p chan i at_ all =>
    simp only [State.woke, State.setPc, Bool.or_eq_true, decide_eq_true_eq] at h
    exact h.imp id fun hg => ⟨p, chan, i, at_, all, hg⟩
  | _ => exact .inl h

omit [NeZero n] [DecidableEq χ] in
theorem Pc.falls_of_gaveUp (h : pc.gaveUp = some chan) :
    pc.entering = false ∧ ∀ ch, pc.falls = some ch → ch = chan := by
  unfold Pc.gaveUp at h
  split at h <;> cases h <;> simp [eq_comm]

omit [DecidableEq κ] [NeZero n] [DecidableEq χ] in
theorem Calls.skipped (h : Calls lockOf s) (hp : Places lockOf s)
    (hv : (s.pc w).visited = some (chan, i)) (gave : s.gave w (lockOf chan) w = some (chan, c)) :
    Past s w c := by
  rcases Nat.lt_or_eq_of_le (h.gave gave).1 with hlt | heq
  · exact .inl hlt
  have placed : (s.pc w).active = true ∧ (s.pc w).pre = false := by
    revert hv
    cases s.pc w <;> simp
  refine .inr ⟨heq, ?_, placed.2⟩
  rw [(hp.place w).running placed.1]
  exact nofun

/-- A process in a recorded call is switched out on its channel when the scan holds its lock, so the
test wakes it. -/
theorem Calls.tested (h : Calls lockOf s) (hp : Places lockOf s) (st : Step lockOf s s')
    (at_ : s.pc w = .wakeTest chan j)
    (test : s'.state j = .sleeping → s.state j = .sleeping ∧ s.chan j ≠ some chan)
    (gave : s.gave w (lockOf chan) j = some (chan, c)) : Past s' j c := by
  obtain ⟨le, now⟩ := h.gave gave
  obtain ⟨held, ne⟩ := (hp.place w).scan j (by rw [at_]; rfl)
  have away : (s.pc j).owns = false := by
    by_contra own
    have := (hp.place j).own (by simpa using own)
    rw [held] at this
    cases this
    exact ne rfl
  rcases Nat.lt_or_eq_of_le le with hlt | heq
  · exact Past.step (.inl hlt) st
  obtain ⟨entered, falls⟩ := now heq
  rcases st.moves j with hc | hm
  · exact .inl (by omega)
  refine .inr ⟨heq.trans hm.calls.symm, fun hs => ?_, ?_⟩
  · obtain ⟨asleep, off⟩ := test hs
    obtain ⟨ch, hpc | hpc, hchan⟩ := (hp.place j).sleeping asleep
    · rw [hpc] at away; cases away
    · rw [hchan, falls ch (by rw [hpc]; rfl)] at off
      exact off rfl
  · by_contra hs
    have hpre := hm.pre (by simpa using hs)
    revert hpre away entered
    cases s.pc j <;> simp

theorem Calls.step (h : Calls lockOf s) (hp : Places lockOf s) (st : Step lockOf s s') :
    Calls lockOf s' := by
  have gave : ∀ {w k q chan c}, s'.gave w k q = some (chan, c) → c ≤ s.calls q ∧
      (c = s.calls q → (s.pc q).entering = false ∧
        ∀ ch, (s.pc q).falls = some ch → ch = chan) := by
    intro w k q chan c hg
    rcases st.gave hg with hg | ⟨up, rfl, -⟩
    · exact h.gave hg
    · exact ⟨le_rfl, fun _ => Pc.falls_of_gaveUp up⟩
  have scan : ∀ {w chan i}, (s'.pc w).visited = some (chan, i) → ∀ q : Fin n, q.val < i →
      ∀ c, s.gave w (lockOf chan) q = some (chan, c) → Past s' q c := by
    intro w chan i hv q hq c hg
    rcases st.visited hv with hv | rfl | ⟨j, rfl, hv, hj⟩
    · exact (h.scan hv q hq c hg).step st
    · omega
    · by_cases hqj : q.val < j.val
      · exact (h.scan hv q hqj c hg).step st
      · obtain rfl : q = j := Fin.ext (by omega)
        rcases hj with rfl | ⟨at_, test⟩
        · exact (h.skipped hp hv hg).step st
        · exact h.tested hp st at_ test hg
  refine ⟨fun {w k q chan c} hg => ?_, fun {w chan i} hv q hq c hg => ?_, fun q c hd => ?_⟩
  · obtain ⟨le, now⟩ := gave hg
    rcases st.moves q with hc | hm
    · exact ⟨by omega, fun he => by omega⟩
    · refine ⟨hm.calls ▸ le, fun he => ?_⟩
      obtain ⟨entered, falls⟩ := now (he.trans hm.calls)
      refine ⟨?_, fun ch hf => ?_⟩
      · by_contra hs
        rw [hm.entering (by simpa using hs)] at entered
        cases entered
      · rcases hm.falls ch hf with hf | hf
        · exact falls ch hf
        · rw [entered] at hf; cases hf
  · rcases st.gave hg with hg | ⟨-, -, hn⟩
    · exact scan hv q hq c hg
    · rw [hv] at hn; cases hn
  · rcases st.done hd with hd | ⟨w, chan, i, at_, all, hg⟩
    · exact (h.done q c hd).step st
    · exact (h.scan (by rw [at_]; rfl) q (by omega) c hg).step st

theorem calls (run : Reach lockOf live s) : Calls lockOf s :=
  run.invariant_reach (I := Calls lockOf) ⟨nofun, nofun, nofun⟩
    fun _ _ _ before h _ hs => h.step (places before) (step_sound hs)

/-- A process whose `sleep(chan, lk)` had given up `lk` when a waker acquired it is not `SLEEPING`
in that call at or after the return of the waker's `wakeup(chan)`; and one that is `SLEEPING` on a
channel does not hold its lock. -/
theorem no_lost_wakeup {live : Fin n → Bool} (run : Reach lockOf live s) :
    (∀ q call, s.done q call = true → s.calls q = call → s.state q ≠ .sleeping) ∧
    ∀ q, s.state q = .sleeping → ∃ chan, s.chan q = some chan ∧ s.lk (lockOf chan) ≠ some q := by
  refine ⟨fun q call hd hc => ?_, fun q hs => ?_⟩
  · rcases (calls run).done q call hd with hlt | ⟨-, awake, -⟩
    · omega
    · exact awake
  · obtain ⟨chan, at_, hchan⟩ := ((places run).place q).sleeping hs
    refine ⟨chan, hchan, ((places run).place q).apart chan ?_⟩
    rcases at_ with at_ | at_ <;> rw [at_] <;> rfl

end

/-- Process 0 gives up the lock in `sleep`; process 1 acquires it and calls `wakeup` before 0 has
set its state, waits for the lock of 0, and wakes it. -/
def wakesSleeper : List (Label Unit Unit) :=
  [.next 0, .next 0, .next 0, .next 1, .next 1, .next 1, .next 1, .next 1, .next 1,
    .acquire 0 (), .sleep 0 (), .next 0, .next 0, .acquire 1 (), .wakeup 1 (),
    .next 0, .next 0, .next 0, .next 1, .next 1, .next 1, .next 1, .next 1]

theorem no_lost_wakeup_two : ∃ s : State 2 Unit Unit, Reach id (fun _ => true) s ∧
    s.done 0 1 = true ∧ s.calls 0 = 1 ∧ s.state 0 ≠ .sleeping := by
  obtain ⟨s, reach, hdone, hcalls⟩ :=
    exists_reach (step id) (fun _ _ => True) (boot Unit Unit fun _ => true) wakesSleeper
      (P := fun s : State 2 Unit Unit => s.done 0 1 = true ∧ s.calls 0 = 1) (by decide +kernel)
  exact ⟨s, reach, hdone, hcalls, (no_lost_wakeup reach).1 0 1 hdone hcalls⟩

end Xv6.Sched
