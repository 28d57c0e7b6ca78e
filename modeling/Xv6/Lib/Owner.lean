import Mathlib

/-! Ownership of numbered blocks: every block in use is held by exactly one slot, and taking a free
block into an empty slot and giving a block back keep this. -/

namespace Owner

variable {ι : Type} {slot slot' : ι → Nat} {used used' : Nat → Bool} {lo hi b : Nat} {i : ι}

/-- The blocks in use among `lo, …, hi - 1` are those in the slots, and no block is in two slots. -/
structure Owned (slot : ι → Nat) (used : Nat → Bool) (lo hi : Nat) : Prop where
  pos : 0 < lo
  bounds : ∀ i, slot i ≠ 0 → lo ≤ slot i ∧ slot i < hi
  inUse : ∀ i, slot i ≠ 0 → used (slot i) = true
  inj : ∀ i j, slot i ≠ 0 → slot i = slot j → i = j
  owner : ∀ b, lo ≤ b → b < hi → used b = true → ∃ i, slot i = b

theorem Owned.congr (h : Owned slot used lo hi) (slots : ∀ i, slot' i = slot i)
    (blocks : ∀ b, lo ≤ b → b < hi → used' b = used b) : Owned slot' used' lo hi := by
  have same : slot' = slot := funext slots
  subst same
  refine ⟨h.pos, h.bounds, fun i hi => ?_, h.inj, fun b lb ub hb => ?_⟩
  · rw [blocks _ (h.bounds i hi).1 (h.bounds i hi).2]
    exact h.inUse i hi
  · exact h.owner b lb ub (by rwa [← blocks b lb ub])

/-- A free block goes to the empty slot `i`. -/
theorem Owned.take (h : Owned slot used lo hi) (empty : slot i = 0) (lb : lo ≤ b) (ub : b < hi)
    (free : used b = false) (atSlot : slot' i = b) (others : ∀ j, j ≠ i → slot' j = slot j)
    (now : used' b = true) (rest : ∀ c, lo ≤ c → c < hi → c ≠ b → used' c = used c) :
    Owned slot' used' lo hi := by
  have fresh : ∀ j, slot j ≠ 0 → slot j ≠ b := fun j hj e => by
    have := h.inUse j hj
    rw [e, free] at this
    cases this
  refine ⟨h.pos, fun j hj => ?_, fun j hj => ?_, fun j k hj e => ?_, fun c lc uc hc => ?_⟩
  · by_cases ji : j = i
    · rw [ji, atSlot]; exact ⟨lb, ub⟩
    · rw [others j ji] at hj ⊢
      exact h.bounds j hj
  · by_cases ji : j = i
    · rwa [ji, atSlot]
    · rw [others j ji] at hj ⊢
      rw [rest _ (h.bounds j hj).1 (h.bounds j hj).2 (fresh j hj)]
      exact h.inUse j hj
  · by_cases ji : j = i <;> by_cases ki : k = i
    · rw [ji, ki]
    · subst ji
      rw [atSlot, others k ki] at e
      rw [atSlot] at hj
      exact absurd e.symm (fresh k (by rwa [← e]))
    · subst ki
      rw [others j ji] at hj e
      exact absurd (e.trans atSlot) (fresh j hj)
    · rw [others j ji] at hj
      rw [others j ji, others k ki] at e
      exact h.inj j k hj e
  · by_cases cb : c = b
    · exact ⟨i, by rw [atSlot, cb]⟩
    · obtain ⟨j, hj⟩ := h.owner c lc uc (by rwa [← rest c lc uc cb])
      have ji : j ≠ i := fun ji => by
        rw [ji, empty] at hj
        exact absurd (hj ▸ lc) (Nat.not_le.mpr h.pos)
      exact ⟨j, by rw [others j ji, hj]⟩

end Owner
