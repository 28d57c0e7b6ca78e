import Mathlib

/-! Sleepers of a monitor: who sleeps, and that each of them has a reason to. -/

namespace Monitor

open Function

variable {P : Type*} [DecidableEq P] {asleep asleep' : P → Bool} {must must' : P → Prop} {p q : P}

/-- Whoever sleeps has to. -/
def Justified (asleep : P → Bool) (must : P → Prop) : Prop := ∀ p, asleep p = true → must p

namespace Justified

omit [DecidableEq P] in
theorem none : Justified (fun _ => false) must := nofun

omit [DecidableEq P] in
theorem mono (h : Justified asleep must) (fewer : ∀ p, asleep' p = true → asleep p = true)
    (keep : ∀ p, asleep' p = true → must p → must' p) : Justified asleep' must' :=
  fun p sleeps => keep p sleeps (h p (fewer p sleeps))

theorem wake (h : Justified asleep must) (p : P) :
    Justified (update asleep p false) must :=
  (forall_update_iff asleep fun q v => v = true → must q).mpr
    ⟨Bool.noConfusion, fun q _ => h q⟩

theorem sleep (h : Justified asleep must) (now : must p) :
    Justified (update asleep p true) must :=
  (forall_update_iff asleep fun q v => v = true → must q).mpr
    ⟨fun _ => now, fun q _ => h q⟩

end Justified

end Monitor
