import Xv6.Log.Sections

/-! The space in the log. `begin_op` admits an operation while the blocks fit in `logSize`, but one
block of the log is its header, and `log_write` stops one block earlier: its panic is reachable, and
unreachable when operations are admitted against its own limit. -/

namespace Xv6.Log

open Transition Function Finset

variable {g : Geometry} {s s' : State} {l : Label} {d : Disk} {limit : Nat}

/-- Sections log blocks only between `begin_op` and `end_op`, and at most `maxOpBlocks` different
ones each. -/
def Bounded (s : State) : Label → Prop
  | .logWrite p b _ =>
    s.proc p = .inOp ∧
      (if b ∈ s.wrote p then s.wrote p else b :: s.wrote p).length ≤ maxOpBlocks
  | _ => True

instance (s : State) : (l : Label) → Decidable (Bounded s l)
  | .logWrite _ _ _ => inferInstanceAs (Decidable (_ ∧ _))
  | .beginOp _ | .endOp _ | .commit _ | .recover | .crash => .isTrue trivial

/-- A `begin_op` that admits its operation finds room for it below `log.size - 1`, the limit of
`log_write`. -/
def Spacious (g : Geometry) (s : State) : Label → Prop
  | .beginOp _ =>
    s.committing = false → (s.lh.length : Int) + (s.outstanding + 1) * maxOpBlocks ≤ logSize →
      (s.lh.length : Int) + (s.outstanding + 1) * maxOpBlocks < (g.size : Int) - 1
  | _ => True

/-- The blocks in the header and those that the admitted operations may still log come to at most
`limit`. -/
structure Reserved (limit : Nat) (s : State) : Prop where
  fits : s.mode = .up → ∃ ops : Finset Pid, (∀ p, p ∈ ops ↔ s.proc p = .inOp) ∧
    s.outstanding = ops.card ∧
    s.lh.length + ∑ p ∈ ops, (maxOpBlocks - (s.wrote p).length) ≤ limit
  cleared : s.mode = .clearHead → s.lh = []

section

variable (h : Reserved limit s) {p : Pid}

include h

theorem Reserved.length_le (up : s.mode = .up) : s.lh.length ≤ limit := by
  obtain ⟨ops, _, _, hle⟩ := h.fits up
  omega

theorem Reserved.move (mode : s'.mode = s.mode) (outstanding : s'.outstanding = s.outstanding)
    (lh : s'.lh = s.lh) (wrote : s'.wrote = s.wrote)
    (ops : ∀ p, s'.proc p = .inOp ↔ s.proc p = .inOp) :
    Reserved limit s' := by
  refine ⟨fun up => ?_, fun e => lh.trans (h.cleared (mode ▸ e))⟩
  obtain ⟨A, mem, card, hle⟩ := h.fits (mode ▸ up)
  exact ⟨A, fun p => (mem p).trans (ops p).symm, outstanding.trans card, by rwa [lh, wrote]⟩

theorem Reserved.moveOne (at_ : s.proc p ≠ .inOp) (hpc : pc ≠ .inOp) (mode : s'.mode = s.mode)
    (outstanding : s'.outstanding = s.outstanding) (lh : s'.lh = s.lh)
    (wrote : s'.wrote = s.wrote) (proc : s'.proc = update s.proc p pc) :
    Reserved limit s' := by
  refine h.move mode outstanding lh wrote fun q => ?_
  rw [proc]
  by_cases e : q = p
  · subst e; simp [hpc, at_]
  · simp [e]

/-- An admitted operation takes at most the room that was tested. -/
theorem Reserved.enter (up : s.mode = .up) (at_ : s.proc p = .idle ∨ s.proc p = .asleep)
    (room : (s.lh.length : Int) + (s.outstanding + 1) * maxOpBlocks ≤ limit) :
    Reserved limit { s.setProc p .inOp with
      outstanding := s.outstanding + 1
      opened := opened
      wrote := update s.wrote p [] } := by
  refine ⟨fun _ => ?_, fun e => absurd (up.symm.trans e) (by simp)⟩
  obtain ⟨A, mem, card, _⟩ := h.fits up
  have new : p ∉ A := fun hp => by
    have := (mem p).mp hp
    rcases at_ with e | e <;> simp [e] at this
  refine ⟨insert p A, fun q => ?_, ?_, ?_⟩
  · by_cases e : q = p
    · subst e; simp [State.setProc]
    · simp [State.setProc, e, mem]
  · rw [card_insert_of_notMem new]
    push_cast
    rw [← card]
  · have each : ∑ q ∈ insert p A,
        (maxOpBlocks - (update s.wrote p [] q).length) ≤ (A.card + 1) * maxOpBlocks := by
      rw [← card_insert_of_notMem new]
      exact sum_le_card_nsmul _ _ _ fun q _ => Nat.sub_le _ _
    rw [card] at room
    show s.lh.length + ∑ q ∈ insert p A,
      (maxOpBlocks - (update s.wrote p [] q).length) ≤ limit
    have : (s.lh.length : Int) + ((A.card + 1) * maxOpBlocks : Nat) ≤ limit := by
      push_cast; push_cast at room; omega
    omega

/-- What a `log_write` adds to the header it takes from what its section may still log. -/
theorem Reserved.log (sec : Sections s) (up : s.mode = .up) (ok : Bounded s (.logWrite p b data)) :
    Reserved limit { s with
      bread := update s.bread b.toNat data
      lh := if b ∈ s.lh then s.lh else s.lh ++ [b]
      wrote := update s.wrote p
        (if b ∈ s.wrote p then s.wrote p else b :: s.wrote p) } := by
  obtain ⟨at_, few⟩ := ok
  refine ⟨fun _ => ?_, fun e => absurd (up.symm.trans e) (by simp)⟩
  obtain ⟨A, mem, card, hle⟩ := h.fits up
  refine ⟨A, mem, card, ?_⟩
  obtain ⟨_, _, sub⟩ := sec.current p at_
  have hp : p ∈ A := (mem p).mpr at_
  rw [← add_sum_erase A _ hp] at hle ⊢
  have others : ∑ q ∈ A.erase p, (maxOpBlocks - (update s.wrote p
        (if b ∈ s.wrote p then s.wrote p else b :: s.wrote p) q).length) =
      ∑ q ∈ A.erase p, (maxOpBlocks - (s.wrote q).length) := by
    refine sum_congr rfl fun q hq => ?_
    rw [update_of_ne (ne_of_mem_erase hq)]
  dsimp only
  rw [others, update_self]
  by_cases hb : b ∈ s.lh
  · have grow : (s.wrote p).length ≤
        (if b ∈ s.wrote p then s.wrote p else b :: s.wrote p).length := by
      split <;> simp
    rw [if_pos hb]
    omega
  · -- a block new to the header is new to the section too
    have hw : b ∉ s.wrote p := fun hw => hb (sub b hw)
    rw [if_neg hw] at few
    rw [if_neg hb, if_neg hw]
    simp only [List.length_append, List.length_cons, List.length_nil] at few ⊢
    omega

theorem Reserved.leave (up : s.mode = .up) (at_ : s.proc p = .inOp) (hpc : pc ≠ .inOp)
    (mode : s'.mode = s.mode) (outstanding : s'.outstanding = s.outstanding - 1)
    (lh : s'.lh = s.lh) (wrote : s'.wrote = s.wrote)
    (proc : s'.proc = update s.proc p pc) : Reserved limit s' := by
  refine ⟨fun _ => ?_, fun e => absurd (up.symm.trans (mode.symm.trans e)) (by simp)⟩
  obtain ⟨A, mem, card, hle⟩ := h.fits up
  have hp : p ∈ A := (mem p).mpr at_
  refine ⟨A.erase p, fun q => ?_, ?_, ?_⟩
  · rw [proc]
    by_cases e : q = p
    · subst e; simp [hpc]
    · simp [e, mem]
  · have : 0 < A.card := card_pos.mpr ⟨p, hp⟩
    rw [outstanding, card_erase_of_mem hp, card]
    omega
  · rw [← add_sum_erase A _ hp] at hle
    rw [lh, wrote]
    omega

theorem Reserved.effect (inv : Inv s) (ok : Bounded s l)
    (space : ∀ p, l = .beginOp p → s.committing = false →
      (s.lh.length : Int) + (s.outstanding + 1) * maxOpBlocks ≤ logSize →
      (s.lh.length : Int) + (s.outstanding + 1) * maxOpBlocks ≤ limit) (eff : Effect g s l s') :
    Reserved limit s' := by
  cases eff with
  | crash | recRead | recInstall => exact ⟨fun e => (by cases e), fun e => (by cases e)⟩
  | sleep up at_ =>
    exact h.moveOne (by rcases at_ with e | e <;> simp [e]) (by simp) rfl rfl rfl rfl rfl
  | enter up at_ quiet room => exact h.enter up at_ (space _ rfl quiet room)
  | tooBig | outside => exact h.move rfl rfl rfl rfl fun _ => Iff.rfl
  | log up => exact h.log inv.sections up ok
  | endPanic up at_ busy => exact absurd at_ (inv.protocol.exclusive busy _)
  | endLast up at_ | endOther up at_ => exact h.leave up at_ (by simp) rfl rfl rfl rfl rfl
  | @clear p up at_ =>
    refine ⟨fun _ => ?_, fun _ => rfl⟩
    have hm : Reserved limit (s.setProc p (.commit .clearHead)) :=
      h.moveOne (by simp [at_]) (by simp) rfl rfl rfl rfl rfl
    obtain ⟨A, mem, card, hle⟩ := hm.fits up
    exact ⟨A, mem, card, by simp only [List.length_nil]; omega⟩
  | done up at_ => exact h.moveOne (by simp [at_]) (by simp) rfl rfl rfl rfl rfl
  | recInstallEnd => exact ⟨fun e => (by cases e), fun _ => rfl⟩
  | recClear mode =>
    have off : s.mode ≠ .up := by simp [mode]
    have idle := inv.protocol.down off
    refine ⟨fun _ => ⟨∅, fun p => ?_, ?_, ?_⟩, fun e => (by cases e)⟩
    · simp [State.bwrite, idle p]
    · obtain ⟨A, mem, card⟩ := inv.protocol.count
      have empty : A = ∅ := eq_empty_of_forall_notMem fun q hq => by
        have := (mem q).mp hq
        rw [idle q] at this
        cases this
      simp [State.bwrite, card, empty]
    · simp [State.bwrite, h.cleared mode]
  | testSome up at_ | testNone up at_ | writeLog up at_ | writeLogEnd up at_ | writeHead up at_
  | install up at_ | installEnd up at_ | clearHead up at_ =>
    exact h.moveOne (by simp [at_]) (by simp) rfl rfl rfl rfl rfl

end

/-- With each operation admitted below the limit of `log_write`, none that logs at most
`maxOpBlocks` different blocks finds the log full. -/
theorem spacious_never_tooBig (start : Nat) (d : Disk) (s : State)
    (run : Reach (mkfsGeometry start)
      (fun s l => Bounded s l ∧ Spacious (mkfsGeometry start) s l) d s) :
    s.panicked ≠ some .tooBig := by
  have all : Inv s ∧ Reserved (logSize - 2) s ∧ s.panicked ≠ some .tooBig := by
    refine run.invariant
      (I := fun s => Inv s ∧ Reserved (logSize - 2) s ∧ s.panicked ≠ some .tooBig)
      ⟨Inv.boot d, ⟨fun e => (by cases e), fun e => (by cases e)⟩, by simp [State.boot]⟩
      fun s l s' ⟨inv, res, old⟩ ⟨bounded, spacious⟩ hs => ?_
    obtain ⟨eff, _⟩ := step_effect hs
    refine ⟨inv.step hs, res.effect inv bounded ?_ eff, ?_⟩
    · rintro p rfl quiet room
      have := spacious quiet room
      simp only [mkfsGeometry] at this
      omega
    · cases eff with
      | crash => simp [State.crash, State.boot]
      | tooBig up full =>
        have small := res.length_le up
        exfalso
        simp only [mkfsGeometry, logSize, maxOpBlocks] at full small
        omega
      | outside => simp [State.panic]
      | endPanic up at_ busy => exact absurd at_ (inv.protocol.exclusive busy _)
      | _ => exact old
  exact all.2.2

instance (g : Geometry) (s : State) : (l : Label) → Decidable (Spacious g s l)
  | .beginOp _ => inferInstanceAs (Decidable (_ → _ → _))
  | .logWrite _ _ _ | .endOp _ | .commit _ | .recover | .crash => .isTrue trivial

/-- Boot, then `ops` overlapping operations that log `blocks` different blocks in turns of
`maxOpBlocks`. -/
def overlap (ops blocks : Nat) : List Label :=
  List.replicate 3 .recover ++ (List.range ops).map .beginOp ++
    (List.range blocks).map fun k => .logWrite (k / maxOpBlocks) (UInt32.ofNat (100 + k)) fun _ => 0

/-- Two operations fill their reservations within the condition. -/
theorem spacious_never_tooBig_two : ∃ s, Reach (mkfsGeometry 2)
      (fun s l => Bounded s l ∧ Spacious (mkfsGeometry 2) s l) (fun _ _ => 0) s ∧
    s.lh.length = 20 ∧ s.panicked ≠ some .tooBig := by
  have run : (exec (step (mkfsGeometry 2))
      (fun s l => decide (Bounded s l ∧ Spacious (mkfsGeometry 2) s l)) (overlap 2 20)
      (State.boot (fun _ _ => 0) [] [])).map (fun s => s.lh.length) = some 20 := by
    decide +kernel
  obtain ⟨s, hs, length⟩ := Option.map_eq_some_iff.mp run
  have reach := reach_of_exec (fun s l h => of_decide_eq_true h) _ hs
  exact ⟨s, reach, length, spacious_never_tooBig 2 _ s reach⟩

/-- Three overlapping operations that log 10 blocks each: `begin_op` admits them all, and the
thirtieth `log_write` panics. -/
theorem three_operations_tooBig : ¬∀ (start : Nat) (d : Disk) (s : State),
    Reach (mkfsGeometry start) Bounded d s → s.panicked ≠ some .tooBig := by
  intro claim
  have run : (exec (step (mkfsGeometry 2)) (fun s l => decide (Bounded s l)) (overlap 3 30)
      (State.boot (fun _ _ => 0) [] [])).map (fun s => s.panicked) = some (some .tooBig) := by
    decide +kernel
  obtain ⟨s, hs, panicked⟩ := Option.map_eq_some_iff.mp run
  exact claim 2 _ s (reach_of_exec (fun s l h => of_decide_eq_true h) _ hs) panicked

end Xv6.Log
