import Mathlib

/-! Weakest preconditions for programs that change a state and may stop with an error. -/

namespace Wp

variable {σ ε α β : Type}

/-- From the state `s` the program `m` either returns a value and a state that satisfy `Q`, or stops
with an error that satisfies `E`. -/
def wp (m : StateT σ (Except ε) α) (E : ε → Prop) (Q : α → σ → Prop) (s : σ) : Prop :=
  match m s with
  | .ok (a, s') => Q a s'
  | .error e => E e

variable {m : StateT σ (Except ε) α} {f : α → StateT σ (Except ε) β} {E E' : ε → Prop}
  {Q Q' : α → σ → Prop} {R : β → σ → Prop} {s s' : σ} {a : α} {e : ε}

theorem wp_ok (h : m s = .ok (a, s')) : wp m E Q s ↔ Q a s' := by rw [wp, h]

theorem wp_error (h : m s = .error e) : wp m E Q s ↔ E e := by rw [wp, h]

@[simp] theorem wp_pure : wp (pure a : StateT σ (Except ε) α) E Q s ↔ Q a s := Iff.rfl

@[simp] theorem wp_get {Q : σ → σ → Prop} :
    wp (get : StateT σ (Except ε) σ) E Q s ↔ Q s s := Iff.rfl

@[simp] theorem wp_set {Q : PUnit → σ → Prop} :
    wp (set s' : StateT σ (Except ε) PUnit) E Q s ↔ Q ⟨⟩ s' := Iff.rfl

@[simp] theorem wp_modify {Q : PUnit → σ → Prop} :
    wp (modify g : StateT σ (Except ε) PUnit) E Q s ↔ Q ⟨⟩ (g s) := Iff.rfl

@[simp] theorem wp_bind : wp (m >>= f) E R s ↔ wp m E (fun a s' => wp (f a) E R s') s := by
  unfold wp
  have e : (m >>= f) s = (m s >>= fun r => f r.1 r.2) := rfl
  rw [e]
  cases m s with
  | error e => rfl
  | ok r => rfl

@[simp] theorem wp_discard {Q : PUnit → σ → Prop} :
    wp (discard m) E Q s ↔ wp m E (fun _ s' => Q ⟨⟩ s') s := by
  unfold wp
  have e : (discard m) s = (m s >>= fun r => pure (⟨⟩, r.2)) := rfl
  rw [e]
  cases m s with
  | error e => rfl
  | ok r => rfl

theorem wp.mono (h : wp m E Q s) (post : ∀ a s', Q a s' → Q' a s') (err : ∀ e, E e → E' e) :
    wp m E' Q' s := by
  unfold wp at *
  split at h
  · exact post _ _ h
  · exact err _ h

theorem wp.bind (h : wp m E Q s) (next : ∀ a s', Q a s' → wp (f a) E R s') :
    wp (m >>= f) E R s :=
  wp_bind.mpr (h.mono next fun _ => id)

theorem wp.seq (h : wp m E (fun a s' => wp (f a) E R s') s) : wp (m >>= f) E R s := wp_bind.mpr h

theorem wp.get {f : σ → StateT σ (Except ε) β} (h : wp (f s) E R s) :
    wp (MonadState.get >>= f) E R s := h

theorem wp.modify {f : PUnit → StateT σ (Except ε) β} (h : wp (f ⟨⟩) E R (g s)) :
    wp (modify g >>= f) E R s := h

theorem wp_ite {c : Prop} [Decidable c] {m' : StateT σ (Except ε) α}
    (pos : c → wp m E Q s) (neg : ¬c → wp m' E Q s) : wp (if c then m else m') E Q s := by
  split
  · exact pos ‹_›
  · exact neg ‹_›

@[simp] theorem wp_forM_cons {g : β → StateT σ (Except ε) PUnit} {Q : PUnit → σ → Prop} :
    wp ((b :: bs).forM g) E Q s ↔ wp (g b) E (fun _ s' => wp (bs.forM g) E Q s') s :=
  wp_bind

theorem wp.result (h : wp m E Q s) :
    (∃ a s', m s = .ok (a, s') ∧ Q a s') ∨ ∃ e, m s = .error e ∧ E e := by
  unfold wp at h
  split at h
  · exact .inl ⟨_, _, ‹_›, h⟩
  · exact .inr ⟨_, ‹_›, h⟩

theorem wp.exists_ok (h : wp m (fun _ => False) Q s) : ∃ a s', m s = .ok (a, s') ∧ Q a s' :=
  h.result.resolve_right fun ⟨_, _, never⟩ => never

theorem wp_returns (never : ∀ t, m s ≠ .ok (a, t))
    (h : wp m E (fun b s' => b ≠ a → Q b s') s) : wp m E Q s := by
  unfold wp at *
  split at h
  · rename_i b s' e
    exact h fun eq => never s' (eq ▸ e)
  · exact h

theorem wp.and (h : wp m E Q s) (h' : wp m E Q' s) : wp m E (fun a s' => Q a s' ∧ Q' a s') s := by
  unfold wp at *
  split at h
  · rename_i e
    rw [e] at h'
    exact ⟨h, h'⟩
  · exact h

end Wp
