import Mathlib

/-! Lists whose elements stand in a circle: each is related to the next and the last to the first.
-/

variable {α : Type*} {R R' : α → α → Prop} {x y : α} {l r : List α}

/-- Each element is related to the next, and the last to the first. -/
def ClosedChain (R : α → α → Prop) : List α → Prop
  | [] => True
  | x :: l => (x :: l ++ [x]).IsChain R

namespace ClosedChain

theorem rotate (h : ClosedChain R (l ++ r)) : ClosedChain R (r ++ l) := by
  cases l with
  | nil => rwa [List.append_nil]
  | cons x l =>
    cases r with
    | nil => rwa [List.append_nil] at h
    | cons y r =>
      replace h : (x :: l ++ y :: (r ++ [x])).IsChain R := by
        simpa [ClosedChain] using h
      show (y :: (r ++ x :: l) ++ [y]).IsChain R
      rw [List.isChain_split] at h
      have back : (y :: r ++ x :: (l ++ [y])).IsChain R := List.isChain_split.mpr ⟨h.2, h.1⟩
      simpa using back

theorem around_iff : ClosedChain R (l ++ x :: r) ↔ (x :: (r ++ l ++ [x])).IsChain R :=
  ⟨fun h => h.rotate, fun h => ClosedChain.rotate (l := x :: r) h⟩

end ClosedChain

theorem isChain_imp_mem (h : (l ++ [x]).IsChain R)
    (imp : ∀ a ∈ l, ∀ b, R a b → R' a b) : (l ++ [x]).IsChain R' := by
  induction l with
  | nil => exact .singleton x
  | cons a l ih =>
    have rest : (l ++ [x]).IsChain R' :=
      ih (List.IsChain.tail h) fun c hc => imp c (List.mem_cons_of_mem _ hc)
    have seam := (List.isChain_cons.mp h).1
    exact List.isChain_cons.mpr
      ⟨fun b hb => imp a (List.mem_cons_self ..) b (seam b hb), rest⟩
