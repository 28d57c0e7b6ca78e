import Xv6.Bio.Invariant
import Xv6.Lib.Run

/-! The block cache with the log over it refines the map `L` of what was logged. -/

namespace Xv6.Bio

open Function Option

open Log (Geometry)
open Transition (guarded)

variable {g : Geometry} {s s' : State} {p : Pid} {i : Index} {b : Nat}

theorem bget_keeps (hi : s.Caches i b) (hr : (s.buf i).refcnt ≠ 0) (p : Pid) (c : Nat) :
    (s.bget p c).Caches i b ∧ ((s.bget p c).buf i).valid = (s.buf i).valid := by
  unfold State.bget
  split
  · simp only [State.await, State.setBuf, State.Caches, update_apply] at *
    grind
  · split
    · rename_i k hk
      have unused : (s.buf k).refcnt = 0 := by simpa using List.find?_some hk
      have hne : i ≠ k := fun e => hr (e ▸ unused)
      simpa [State.await, State.setBuf, State.Caches, hne] using hi
    · exact ⟨hi, rfl⟩

theorem brelse_keeps (hi : s.Caches i b) (p : Pid) (j : Index) :
    (s.brelse p j).Caches i b ∧ ((s.brelse p j).buf i).valid = (s.buf i).valid := by
  unfold State.brelse
  split
  · exact ⟨hi, rfl⟩
  · simp only [State.setBuf, State.Caches, update_apply] at *
    grind

theorem run_keeps {instr : Instr} (hi : s.Caches i b) (hs : s.run g p instr = some s') :
    s'.Caches i b ∧ (s'.buf i).valid = (s.buf i).valid := by
  cases instr with
  | bread c => cases hs
  | copy dst src =>
    simp only [State.run] at hs
    split at hs
    · cases hs
      simp only [State.put, State.setBuf, State.Caches, update_apply] at *
      grind
    · cases hs
  | putHead =>
    obtain ⟨j, -, rfl⟩ := map_eq_some_iff.mp hs
    simp only [State.put, State.setBuf, State.Caches, update_apply] at *
    grind
  | bunpin c =>
    obtain ⟨j, -, rfl⟩ := map_eq_some_iff.mp hs
    simp only [State.setBuf, State.Caches, update_apply] at *
    grind
  | brelse c =>
    obtain ⟨j, -, rfl⟩ := map_eq_some_iff.mp hs
    exact brelse_keeps hi p j
  | clear => cases hs; exact ⟨hi, rfl⟩

theorem step_keeps {l : Label} (hi : s.Caches i b) (hr : (s.buf i).refcnt ≠ 0)
    (hv : (s.buf i).valid = true) (hs : step g l s = some s') :
    s'.Caches i b ∧ (s'.buf i).valid = true := by
  unfold step at hs
  split at hs
  · cases hs
  cases l with
  | bread p c =>
    obtain ⟨-, rfl⟩ := guarded hs
    have := bget_keeps hi hr p c
    exact ⟨this.1, this.2.trans hv⟩
  | acquire p j =>
    obtain ⟨-, rfl⟩ := guarded hs
    simp only [State.acquire, State.setBuf, State.Caches, update_apply] at *
    grind
  | logWrite p j data =>
    obtain ⟨-, rfl⟩ := guarded hs
    simp only [State.logWrite]
    split
    · exact ⟨hi, hv⟩
    split
    · exact ⟨hi, hv⟩
    split
    all_goals
      simp only [State.setBuf, State.Caches, update_apply] at *
      grind
  | brelse p j =>
    obtain ⟨-, rfl⟩ := guarded hs
    have := brelse_keeps hi p j
    exact ⟨this.1, this.2.trans hv⟩
  | beginOp p =>
    simp only [ite_none_right_eq_some, State.beginOp, ite_none_left_eq_some,
      Option.some.injEq] at hs
    obtain ⟨-, -, rfl⟩ := hs
    exact ⟨hi, hv⟩
  | endOp p =>
    obtain ⟨-, rfl⟩ := guarded hs
    simp only [State.endOp]
    split
    · exact ⟨hi, hv⟩
    · split <;> exact ⟨hi, hv⟩
  | commit =>
    replace hs : s.commitStep g = some s' := hs
    unfold State.commitStep at hs
    split at hs
    · cases hs
    · cases hs; exact ⟨hi, hv⟩
    · rename_i p c rest _
      split at hs
      · cases hs
      · cases hs
        have := bget_keeps hi hr p c
        exact ⟨this.1, this.2.trans hv⟩
    · obtain ⟨s₁, h₁, rfl⟩ := map_eq_some_iff.mp hs
      have := run_keeps hi h₁
      exact ⟨this.1, this.2.trans hv⟩

/-- The cache and the log as an implementation of the map `L`. -/
structure Refines (g : Geometry) (s : State) : Prop where
  /-- `bread` returns a locked buffer with the contents that `L` has for the block asked for. -/
  returns : ∀ p i s', step g (.acquire p i) s = some s' → ¬g.Region (s.wants p) →
    s'.Caches i (s.wants p) ∧ (s'.buf i).lock = some p ∧ (s'.buf i).data = s'.L (s.wants p)
  /-- A logged block is in the cache until `install_trans` has written it. -/
  cached : ∀ b, s.Pending b → ∃ i, s.Caches i b
  /-- No step takes its buffer away. -/
  kept : ∀ l s' i b, step g l s = some s' → s.Caches i b → s.Pending b →
    s'.Caches i b ∧ (s'.buf i).valid = true
  /-- After `commit` the header is empty, and while it is the disk has all of `L`. -/
  committed : ∀ p, s.committing = some (p, []) → s.lh = []
  installed : s.lh = [] → ∀ b, ¬g.Region b → s.disk b = s.L b
  /-- The process in `commit` waits for nothing but the lock of a buffer. -/
  proceeds : ∀ p instr rest, s.panicked = none → s.committing = some (p, instr :: rest) →
    (∀ b, instr ≠ .bread b) → ∃ s', step g .commit s = some s' ∧ s'.committing = some (p, rest)

theorem Inv.returns (h : Inv g s) (hs : Bio.step g (.acquire p i) s = some s')
    (home : ¬g.Region (s.wants p)) :
    s'.Caches i (s.wants p) ∧ (s'.buf i).lock = some p ∧ (s'.buf i).data = s'.L (s.wants p) := by
  have h' : Inv g s' := h.step (l := .acquire p i) trivial hs
  unfold Bio.step at hs
  split at hs
  · cases hs
  obtain ⟨⟨hp, hl⟩, rfl⟩ := guarded hs
  have caches : ({ s.acquire p i with committing := s.afterBread p } : State).Caches i
      (s.wants p) := by
    simpa [State.acquire, State.setBuf, State.Caches] using h.counted.sleepers i p hp
  have data := h'.contents.data i _ caches (by simp [State.acquire, State.setBuf])
  rw [State.shows, if_neg home] at data
  exact ⟨caches, by simp [State.acquire, State.setBuf], data⟩

theorem cache_refines {s₀ : State} (start : Start s₀) (run : Reach g s₀ s) : Refines g s := by
  have h : Inv g s := run.invariant start.inv fun _ _ _ h ok hs => h.step ok hs
  refine ⟨fun p i s' hs home => h.returns hs home, fun b hb => ?_, fun l s' i b hs hi hb => ?_,
    fun p e => (h.committer.fits p _ e).2, fun empty b hr => ?_, fun p instr rest alive e hb => ?_⟩
  · obtain ⟨i, hi, -⟩ := h.contents.cached b (h.committer.pinned hb)
    exact ⟨i, hi⟩
  · have pinned := h.committer.pinned hb
    obtain ⟨j, hj, valid⟩ := h.contents.cached b pinned
    obtain rfl := h.counted.keys i j b hi hj
    refine step_keeps hi (fun h0 => ?_) valid hs
    exact (h.counted.unused h0).2.2 ⟨hi.1, hi.2 ▸ pinned⟩
  · refine h.contents.disk b hr fun hp => ?_
    rw [State.Pending, empty] at hp
    cases hp.1
  · obtain ⟨s₁, h₁, -⟩ := h.run e hb
    refine ⟨{ s₁ with committing := some (p, rest) }, ?_, rfl⟩
    simp only [step, alive, ne_eq, not_true_eq_false, if_false, State.commitStep, e]
    cases instr with
    | bread b => exact absurd rfl (hb b)
    | _ => simp [h₁]

theorem start_init (d : Disk) : Start (State.init d) where
  lru i := List.mem_reverse.mpr (List.mem_finRange i)
  unused _ := ⟨rfl, rfl, rfl⟩
  keys i j b hi := by cases hi.1
  data i hi := by cases hi
  log := ⟨rfl, rfl, rfl⟩
  contents := rfl

/-- One process logs block 100 and commits it. -/
def oneCommit : List Label :=
  [.beginOp 0, .bread 0 100, .acquire 0 0, .logWrite 0 0 fun _ => 7, .brelse 0 0, .endOp 0,
    .commit, .acquire 0 1, .commit, .acquire 0 0, .commit, .commit, .commit,
    .commit, .acquire 0 2, .commit, .commit,
    .commit, .acquire 0 1, .commit, .acquire 0 0, .commit, .commit, .commit, .commit,
    .commit, .commit, .acquire 0 2, .commit, .commit]

instance (g : Geometry) (s : State) : (l : Label) → Decidable (OverHome g s l)
  | .bread _ b => inferInstanceAs (Decidable (¬g.Region b))
  | .acquire _ _ | .logWrite _ _ _ | .brelse _ _ | .beginOp _ | .endOp _ | .commit => .isTrue trivial

theorem cache_refines_oneCommit : ∃ s, Reach (Log.mkfsGeometry 2) (State.init fun _ _ => 0) s ∧
    s.committing = some (0, []) ∧ s.disk 100 0 = 7 ∧ Refines (Log.mkfsGeometry 2) s := by
  have run : (Transition.exec (step (Log.mkfsGeometry 2))
      (fun s l => decide (OverHome (Log.mkfsGeometry 2) s l)) oneCommit
      (State.init fun _ _ => 0)).map (fun s => (s.committing, s.disk 100 0)) =
        some (some (0, []), 7) := by
    decide +kernel
  obtain ⟨s, hs, result⟩ := map_eq_some_iff.mp run
  simp only [Prod.mk.injEq] at result
  have reach := Transition.reach_of_exec (fun s l h => of_decide_eq_true h) _ hs
  exact ⟨s, reach, result.1, result.2, cache_refines (start_init _) reach⟩

end Xv6.Bio
