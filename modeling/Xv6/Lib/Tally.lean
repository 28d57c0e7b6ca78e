import Mathlib

/-! The number of places that point to an object, for a finite set of places that each point to at
most one object. -/

namespace Tally

open Function Finset

variable {ι κ : Type*} [Fintype ι] [DecidableEq κ]

/-- The number of places that point to `b`. -/
def tally (g : ι → Option κ) (b : κ) : Int := (Finset.univ.filter fun a => g a = some b).card

def pointer (o : Option κ) : κ → Int := o.elim 0 fun b => Pi.single b 1

@[simp] theorem pointer_none : pointer (none : Option κ) = 0 := rfl

@[simp] theorem pointer_some (b : κ) : pointer (some b) = Pi.single b 1 := rfl

theorem pointer_apply (o : Option κ) (b : κ) : pointer o b = if o = some b then 1 else 0 := by
  cases o with
  | none => rfl
  | some c =>
    by_cases same : b = c
    · rw [same, pointer_some, Pi.single_eq_same, if_pos rfl]
    · rw [pointer_some, Pi.single_eq_of_ne same, if_neg fun e => same (Option.some.inj e).symm]

theorem tally_eq_sum (g : ι → Option κ) : tally g = ∑ a, pointer (g a) := by
  funext b
  rw [Finset.sum_apply, tally, Finset.card_filter, Nat.cast_sum]
  refine Finset.sum_congr rfl fun a _ => ?_
  rw [pointer_apply]
  split <;> rfl

theorem tally_update [DecidableEq ι] (g : ι → Option κ) (a : ι) (v : Option κ) :
    tally (update g a v) = tally g + pointer v - pointer (g a) := by
  have others : ∑ x ∈ Finset.univ.erase a, pointer (update g a v x) =
      ∑ x ∈ Finset.univ.erase a, pointer (g x) :=
    sum_congr rfl fun x hx => by rw [update_of_ne (ne_of_mem_erase hx)]
  rw [tally_eq_sum, tally_eq_sum, ← add_sum_erase _ _ (mem_univ a),
    ← add_sum_erase _ (fun x => pointer (g x)) (mem_univ a), others,
    update_self]
  abel

theorem tally_nonneg (g : ι → Option κ) (b : κ) : 0 ≤ tally g b := Int.natCast_nonneg _

theorem tally_le_card (g : ι → Option κ) (b : κ) : tally g b ≤ Fintype.card ι :=
  Int.ofNat_le.mpr (card_filter_le _ _)

theorem tally_pos {a : ι} {b : κ} (h : g a = some b) : 0 < tally g b := by
  refine Int.natCast_pos.mpr (card_pos.mpr ⟨a, ?_⟩)
  simpa using h

theorem tally_eq_zero {g : ι → Option κ} : tally g b = 0 ↔ ∀ a, g a ≠ some b := by
  rw [tally, Int.natCast_eq_zero, card_eq_zero, filter_eq_empty_iff]
  exact ⟨fun h a => h (mem_univ a), fun h a _ => h a⟩

@[simp] theorem tally_const_none : tally (fun _ : ι => (none : Option κ)) = 0 :=
  funext fun _ => tally_eq_zero.mpr fun _ => nofun

end Tally
