import Mathlib

/-! Runs of a labelled transition system given by a partial step function, the invariant rule for
them, and the evaluation of a run from the list of its labels. -/

namespace Transition

instance one_neZero : NeZero 1 := ⟨by decide⟩

instance two_neZero : NeZero 2 := ⟨by decide⟩

variable {σ ℓ : Type*} {step : ℓ → σ → Option σ} {ok ok' : σ → ℓ → Prop} {s0 s s' : σ} {l : ℓ}

/-- `Reach step ok s0 s`: some run leads from `s0` to `s`, and each of its steps met `ok` in the
state that it was taken in. -/
inductive Reach (step : ℓ → σ → Option σ) (ok : σ → ℓ → Prop) (s₀ : σ) : σ → Prop
  | start : Reach step ok s₀ s₀
  | next {s s' : σ} {l : ℓ} :
      Reach step ok s₀ s → ok s l → step l s = some s' → Reach step ok s₀ s'

/-- A step that is taken under a guard: the guard held, and the step led where it says. -/
theorem guarded {c : Prop} [Decidable c] (h : (if c then some s else none) = some s') :
    c ∧ s' = s := by
  obtain ⟨holds, eq⟩ := Option.ite_none_right_eq_some.mp h
  exact ⟨holds, (Option.some.inj eq).symm⟩

/-- What holds at the start and is kept by every step that meets `ok` holds in every state
reached. -/
theorem Reach.invariant {I : σ → Prop} (run : Reach step ok s0 s) (start : I s0)
    (keep : ∀ s l s', I s → ok s l → step l s = some s' → I s') : I s := by
  induction run with
  | start => exact start
  | next _ hok hstep ih => exact keep _ _ _ ih hok hstep

theorem Reach.invariant_reach {I : σ → Prop} (run : Reach step ok s0 s) (start : I s0)
    (keep : ∀ s l s', Reach step ok s0 s → I s → ok s l → step l s = some s' → I s') : I s := by
  induction run with
  | start => exact start
  | next before hok hstep ih => exact keep _ _ _ before ih hok hstep

theorem Reach.mono (run : Reach step ok s0 s) (h : ∀ s l, ok s l → ok' s l) :
    Reach step ok' s0 s := by
  induction run with
  | start => exact .start
  | next _ hok hstep ih => exact .next ih (h _ _ hok) hstep

theorem Reach.trans (first : Reach step ok s0 s1) (second : Reach step ok s1 s) :
    Reach step ok s0 s := by
  induction second with
  | start => exact first
  | next _ hok hstep ih => exact .next ih hok hstep

/-- The state after the steps with the given labels, when each is enabled and passes the test. -/
def exec (step : ℓ → σ → Option σ) (test : σ → ℓ → Bool) : List ℓ → σ → Option σ
  | [], s => some s
  | l :: ls, s => if test s l then (step l s).bind (exec step test ls) else none

theorem reach_of_exec (h : ∀ s l, test s l = true → ok s l) :
    ∀ (ls : List ℓ) {s0 s : σ}, exec step test ls s0 = some s → Reach step ok s0 s
  | [], _, _, hrun => by cases hrun; exact .start
  | l :: ls, s0, s, hrun => by
    rw [exec] at hrun
    split at hrun
    · obtain ⟨mid, hstep, hrest⟩ := Option.bind_eq_some_iff.mp hrun
      exact (Reach.next .start (h _ _ ‹_›) hstep).trans (reach_of_exec h ls hrest)
    · cases hrun

theorem exists_reach_of_exec {test : σ → ℓ → Bool} {P : σ → Prop} [DecidablePred P]
    (h : ∀ s l, test s l = true → ok s l) (ls : List ℓ)
    (run : (exec step test ls s0).any (fun s => decide (P s)) = true) :
    ∃ s, Reach step ok s0 s ∧ P s := by
  obtain ⟨s, hs, hP⟩ := (Option.any_eq_true _ _).mp run
  exact ⟨s, reach_of_exec h ls hs, of_decide_eq_true hP⟩

/-- A run that meets a decidable condition at every step reaches the state it ends in. -/
theorem exists_reach (step : ℓ → σ → Option σ) (ok : σ → ℓ → Prop) [∀ s l, Decidable (ok s l)]
    (s0 : σ) (ls : List ℓ) {P : σ → Prop} [DecidablePred P]
    (run : (exec step (fun s l => decide (ok s l)) ls s0).any (fun s => decide (P s)) = true) :
    ∃ s, Reach step ok s0 s ∧ P s :=
  exists_reach_of_exec (fun _ _ => of_decide_eq_true) ls run

end Transition
