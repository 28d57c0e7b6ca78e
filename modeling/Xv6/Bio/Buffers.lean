import Xv6.Bio.Refinement

/-! When `bget` finds a buffer: as long as references of processes and pins of the log are fewer
than `NBUF`. -/

namespace Xv6.Bio

open Finset

open Log (Geometry)
open Transition (guarded)

variable {g : Geometry} {s s' : State} {l : Label}

/-- The references of the processes, those in `commit` included. -/
def State.inUse (s : State) : Nat := ∑ i, s.users i

/-- The step is a call of `bget`, by a process or by `commit`. -/
def State.Gets (s : State) : Label → Bool
  | .bread _ _ => true
  | .commit =>
    match s.committing with
    | some (_, .bread _ :: _) => true
    | _ => false
  | _ => false

/-- At `bget`, the buffers held or waited for and the blocks in the header of the log are fewer than
`NBUF`. -/
def Spare (g : Geometry) (s : State) (l : Label) : Prop :=
  OverHome g s l ∧ (s.Gets l = true → s.inUse + s.lh.length < nbuf)

instance (g : Geometry) : DecidableRel (Spare g) := fun s l =>
  inferInstanceAs (Decidable (OverHome g s l ∧ _))

theorem Counted.card_pins (h : Counted s) :
    (Finset.univ.filter fun i => s.Pins i).card ≤ s.lh.length := by
  have inj : Set.InjOn (fun i => (s.buf i).blockno) (Finset.univ.filter fun i => s.Pins i) := by
    intro i hi j hj same
    have hi : s.Pins i := (mem_filter.mp hi).2
    have hj : s.Pins j := (mem_filter.mp hj).2
    exact h.keys i j _ ⟨hi.1, rfl⟩ ⟨hj.1, same.symm⟩
  have maps : ∀ i ∈ Finset.univ.filter fun i => s.Pins i, (s.buf i).blockno ∈ s.lh.toFinset := by
    intro i hi
    have hi : s.Pins i := (mem_filter.mp hi).2
    exact List.mem_toFinset.mpr hi.2.1
  exact (card_le_card_of_injOn _ maps inj).trans s.lh.toFinset_card_le

theorem Counted.exists_unused (h : Counted s) (spare : s.inUse + s.lh.length < nbuf) :
    ∃ i, (s.buf i).refcnt = 0 := by
  by_contra all
  rw [not_exists] at all
  have pins := h.card_pins
  have total : ∑ i, (s.buf i).refcnt = s.inUse + (Finset.univ.filter fun i => s.Pins i).card := by
    rw [State.inUse, card_filter, ← sum_add_distrib]
    exact sum_congr rfl fun i _ => h.refs i
  have each : nbuf ≤ ∑ i, (s.buf i).refcnt := by
    calc nbuf = ∑ _i : Index, 1 := by simp
      _ ≤ ∑ i, (s.buf i).refcnt :=
        sum_le_sum fun i _ => Nat.one_le_iff_ne_zero.mpr (all i)
  omega

theorem bget_panics (alive : s.panicked = none)
    (h : (s.bget p b).panicked = some .noBuffers) : ∀ i ∈ s.lru, (s.buf i).refcnt ≠ 0 := by
  unfold State.bget at h
  split at h
  · rw [show (s.await p _ _).panicked = s.panicked from rfl, alive] at h
    cases h
  · split at h
    · rw [show (s.await p _ _).panicked = s.panicked from rfl, alive] at h
      cases h
    next none =>
      intro i hi zero
      exact List.find?_eq_none.mp none i (List.mem_reverse.mpr hi) (decide_eq_true zero)

theorem run_panicked (alive : s.panicked = none)
    (hs : s.run g p instr = some s') : s'.panicked ≠ some .noBuffers := by
  cases instr with
  | bread b => cases hs
  | copy dst src =>
    unfold State.run at hs
    dsimp only at hs
    split at hs
    · cases hs
      rw [show (s.put _ _).panicked = s.panicked from rfl, alive]
      nofun
    · cases hs
  | putHead =>
    obtain ⟨i, -, rfl⟩ := Option.map_eq_some_iff.mp hs
    rw [show (s.put _ _).panicked = s.panicked from rfl, alive]
    nofun
  | bunpin b =>
    obtain ⟨i, -, rfl⟩ := Option.map_eq_some_iff.mp hs
    rw [show (s.setBuf _ _).panicked = s.panicked from rfl, alive]
    nofun
  | brelse b =>
    obtain ⟨i, -, rfl⟩ := Option.map_eq_some_iff.mp hs
    unfold State.brelse
    split
    · nofun
    · show s.panicked ≠ _
      rw [alive]
      nofun
  | clear =>
    cases hs
    rw [alive]
    nofun

theorem step_panics (hs : step g l s = some s') (h : s'.panicked = some .noBuffers) :
    s.Gets l = true ∧ ∀ i ∈ s.lru, (s.buf i).refcnt ≠ 0 := by
  unfold Bio.step at hs
  split at hs
  · cases hs
  rename_i alive
  have alive := not_not.mp alive
  -- a step that leaves `panicked` alone is not the one
  have unchanged : ∀ {P : Prop}, s.panicked = some .noBuffers → P := fun same => by
    rw [alive] at same
    cases same
  cases l with
  | bread p b =>
    obtain ⟨-, rfl⟩ := guarded hs
    exact ⟨rfl, bget_panics alive h⟩
  | acquire p i =>
    obtain ⟨-, rfl⟩ := guarded hs
    exact unchanged h
  | logWrite p i data =>
    obtain ⟨-, rfl⟩ := guarded hs
    unfold State.logWrite at h
    dsimp only at h
    split at h
    · cases h
    split at h
    · cases h
    split at h <;> exact unchanged h
  | brelse p i =>
    obtain ⟨-, rfl⟩ := guarded hs
    unfold State.brelse at h
    split at h
    · cases h
    · exact unchanged h
  | beginOp p =>
    obtain ⟨-, hs⟩ := Option.ite_none_right_eq_some.mp hs
    unfold State.beginOp at hs
    split at hs
    · cases hs
    · cases hs
      exact unchanged h
  | endOp p =>
    obtain ⟨-, rfl⟩ := guarded hs
    unfold State.endOp at h
    dsimp only at h
    split at h
    · cases h
    · split at h <;> exact unchanged h
  | commit =>
    replace hs : s.commitStep g = some s' := hs
    unfold State.commitStep at hs
    split at hs
    · cases hs
    · cases hs
      exact unchanged h
    next p b rest e =>
      split at hs
      · cases hs
      · cases hs
        refine ⟨?_, bget_panics alive h⟩
        unfold State.Gets
        rw [e]
    · obtain ⟨s1, h1, rfl⟩ := Option.map_eq_some_iff.mp hs
      exact (run_panicked alive h1 h).elim

/-- With `Spare` room at each call `bget` does not run out of buffers, and in a state with that room
some buffer has no reference. -/
theorem bget_finds_buffer {s₀ : State} (start : Start s₀) (alive : s₀.panicked = none)
    (run : Transition.Reach (step g) (Spare g) s₀ s) :
    s.panicked ≠ some .noBuffers ∧
    (s.inUse + s.lh.length < nbuf → ∃ i, (s.buf i).refcnt = 0) := by
  obtain ⟨inv, fine⟩ : Inv g s ∧ s.panicked ≠ some .noBuffers :=
    run.invariant (I := fun s => Inv g s ∧ s.panicked ≠ some .noBuffers)
      ⟨start.inv, by rw [alive]; nofun⟩ fun s l s' h ok hs => by
      refine ⟨h.1.step ok.1 hs, fun panics => ?_⟩
      obtain ⟨gets, all⟩ := step_panics hs panics
      obtain ⟨i, zero⟩ := h.1.counted.exists_unused (ok.2 gets)
      exact all i (h.1.counted.lru i) zero
  exact ⟨fine, inv.counted.exists_unused⟩

/-- The run of one commit has room all the way. -/
theorem bget_finds_buffer_oneCommit : ∃ s,
    Transition.Reach (step (Log.mkfsGeometry 2)) (Spare (Log.mkfsGeometry 2))
      (State.init fun _ _ => 0) s ∧
    s.committing = some (0, []) ∧ s.panicked ≠ some .noBuffers := by
  obtain ⟨s, reach, done⟩ := Transition.exists_reach (step (Log.mkfsGeometry 2))
    (Spare (Log.mkfsGeometry 2)) (State.init fun _ _ => 0) oneCommit
    (P := fun s : State => s.committing = some (0, [])) (by decide +kernel)
  exact ⟨s, reach, done, (bget_finds_buffer (start_init _) rfl reach).1⟩

/-- One more process than there are buffers reads a block of its own. -/
def manyReaders : List Label := (List.range (nbuf + 1)).map fun p => .bread p (100 + p)

/-- The processes are fewer than `NPROC` and none of them logs anything, and `bget` panics for the
last of them. -/
theorem readers_exhaust_buffers : nbuf + 1 ≤ nproc ∧ ∃ s,
    Reach (Log.mkfsGeometry 2) (State.init fun _ _ => 0) s ∧
    s.lh = [] ∧ s.panicked = some .noBuffers :=
  ⟨by decide, Transition.exists_reach (step (Log.mkfsGeometry 2)) (OverHome (Log.mkfsGeometry 2))
    (State.init fun _ _ => 0) manyReaders
    (P := fun s : State => s.lh = [] ∧ s.panicked = some .noBuffers) (by decide +kernel)⟩

end Xv6.Bio
