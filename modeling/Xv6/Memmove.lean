import Mathlib

/-! `memmove` of the kernel and of the user library, which choose the direction by different tests.
-/

namespace Xv6.Memmove

open Function UInt64

abbrev Mem := UInt64 → UInt8

/-- `while(n-- > 0) *d++ = *s++;` -/
def copyUp : Nat → UInt64 → UInt64 → Mem → Mem
  | 0, _, _, m => m
  | n + 1, d, s, m => copyUp n (d + 1) (s + 1) (update m d (m s))

/-- `while(n-- > 0) *--d = *--s;` -/
def copyDown : Nat → UInt64 → UInt64 → Mem → Mem
  | 0, _, _, m => m
  | n + 1, d, s, m => copyDown n (d - 1) (s - 1) (update m (d - 1) (m (s - 1)))

/-- `memmove` of kernel/string.c. -/
def Kernel.memmove (dst src : UInt64) (n : UInt32) (m : Mem) : UInt64 × Mem :=
  if n = 0 then (dst, m)
  else if src < dst ∧ src + n.toUInt64 > dst then
    (dst, copyDown n.toNat (dst + n.toUInt64) (src + n.toUInt64) m)
  else (dst, copyUp n.toNat dst src m)

/-- `memmove` of user/ulib.c. -/
def User.memmove (vdst vsrc : UInt64) (n : Int32) (m : Mem) : UInt64 × Mem :=
  if vsrc > vdst then (vdst, copyUp n.toInt.toNat vdst vsrc m)
  else
    (vdst, copyDown n.toInt.toNat (vdst + UInt64.ofInt n.toInt) (vsrc + UInt64.ofInt n.toInt) m)

/-- At `dst` stand the `n` bytes that `m` has at `src`. -/
def moved (dst src : UInt64) (n : Nat) (m : Mem) : Mem := fun a =>
  if (a - dst).toNat < n then m (src + (a - dst)) else m a

variable {d s : UInt64} {n : Nat} {m : Mem}

/-- Going up, the source is read before it is overwritten unless `d` is less than `n` bytes after
`s`. -/
theorem copyUp_eq (small : n ≤ 2 ^ 64) (apart : d = s ∨ n ≤ (d - s).toNat) :
    copyUp n d s m = moved d s n m := by
  induction n generalizing d s m with
  | zero => rfl
  | succ n ih =>
    have apart' : d + 1 = s + 1 ∨ n ≤ (d + 1 - (s + 1)).toNat := by
      rw [show d + 1 - (s + 1) = d - s by grind]
      exact apart.imp (congrArg (· + 1)) Nat.le_of_succ_le
    rw [copyUp, ih (by omega) apart']
    funext a
    unfold moved
    by_cases first : a = d
    · subst first
      have last : ¬(a - (a + 1)).toNat < n := by
        rw [show a - (a + 1) = -1 by grind]
        show ¬2 ^ 64 - 1 < n
        omega
      have zero : a - a = 0 := by grind
      rw [if_neg last, update_self, if_pos (by rw [zero]; exact Nat.succ_pos n), zero, add_zero]
    · have pos : (a - d).toNat ≠ 0 := fun zero => first (by
        have : a - d = 0 := UInt64.toNat_inj.mp zero
        grind)
      have next : (a - (d + 1)).toNat = (a - d).toNat - 1 := by
        rw [show a - (d + 1) = a - d - 1 by grind, UInt64.toNat_sub_of_le]
        · rfl
        · rw [UInt64.le_iff_toNat_le]
          exact Nat.pos_of_ne_zero pos
      rw [next, show s + 1 + (a - (d + 1)) = s + (a - d) by grind, update_of_ne first]
      refine if_ctx_congr (by omega) (fun inside => ?_) fun _ => rfl
      refine update_of_ne (fun hit => ?_) ..
      have same : a - d = d - s := by grind
      rcases apart with rfl | far
      · rw [same] at pos
        exact pos (by simp)
      · rw [same] at inside
        omega

theorem copyDown_eq (small : n ≤ 2 ^ 64) (apart : d = s ∨ n ≤ (s - d).toNat) :
    copyDown n (d + UInt64.ofNat n) (s + UInt64.ofNat n) m = moved d s n m := by
  induction n generalizing m with
  | zero => rfl
  | succ n ih =>
    have pred : ∀ x, x + UInt64.ofNat (n + 1) - 1 = x + UInt64.ofNat n := fun x => by
      rw [ofNat_add, show UInt64.ofNat 1 = 1 from rfl]
      grind
    have at_ : (UInt64.ofNat n).toNat = n := toNat_ofNat_of_lt' (Nat.lt_of_succ_le small)
    rw [copyDown, pred, pred, ih (by omega) (apart.imp_right Nat.le_of_succ_le)]
    funext a
    unfold moved
    by_cases last : a = d + UInt64.ofNat n
    · have offset : a - d = UInt64.ofNat n := by grind
      rw [offset, at_, if_neg (lt_irrefl n), if_pos (Nat.lt_succ_self n), last, update_self]
    · have other : (a - d).toNat ≠ n := fun eq => last (by
        have : a - d = UInt64.ofNat n := UInt64.toNat_inj.mp (eq.trans at_.symm)
        grind)
      rw [update_of_ne last]
      refine if_ctx_congr (by omega) (fun inside => ?_) fun _ => rfl
      refine update_of_ne (fun hit => ?_) ..
      have diff : s - d = UInt64.ofNat n - (a - d) := by grind
      have le : a - d ≤ UInt64.ofNat n := by
        rw [le_iff_toNat_le, at_]
        omega
      have count := congrArg UInt64.toNat diff
      rw [UInt64.toNat_sub_of_le _ _ le, at_] at count
      rcases apart with rfl | far
      · rw [show d - d = 0 by grind, UInt64.toNat_zero] at count
        omega
      · omega

/-- Memory `m'` has at `dst` the `n` bytes that `m` has at `src`, and is `m` elsewhere. -/
structure Moved (dst src : UInt64) (n : Nat) (m m' : Mem) : Prop where
  copied : ∀ i < n, m' (dst + UInt64.ofNat i) = m (src + UInt64.ofNat i)
  frame : ∀ a, a.toNat < dst.toNat ∨ dst.toNat + n ≤ a.toNat → m' a = m a

section

variable (hs : s.toNat + n ≤ 2 ^ 64) (hd : d.toNat + n ≤ 2 ^ 64)

include hd

theorem moved_moved : Moved d s n m (moved d s n m) := by
  constructor
  · intro i lt
    have offset : d + UInt64.ofNat i - d = UInt64.ofNat i := by grind
    unfold moved
    rw [offset, if_pos]
    rwa [toNat_ofNat_of_lt' (show i < 2 ^ 64 by omega)]
  · intro a outside
    refine if_neg fun inside => ?_
    have := a.toNat_lt
    have := d.toNat_lt
    rw [UInt64.toNat_sub] at inside
    omega

include hs

theorem copyUp_of_le (le : d ≤ s) : copyUp n d s m = moved d s n m := by
  refine copyUp_eq (by omega) ?_
  rw [UInt64.toNat_sub, ← UInt64.toNat_inj]
  have := UInt64.le_iff_toNat_le.mp le
  omega

theorem copyDown_of_le (le : s ≤ d) :
    copyDown n (d + UInt64.ofNat n) (s + UInt64.ofNat n) m = moved d s n m := by
  refine copyDown_eq (by omega) ?_
  rw [UInt64.toNat_sub, ← UInt64.toNat_inj]
  have := UInt64.le_iff_toNat_le.mp le
  omega

end

theorem Kernel.memmove_eq {n : UInt32} (hs : s.toNat + n.toNat ≤ 2 ^ 64)
    (hd : d.toNat + n.toNat ≤ 2 ^ 64) : Kernel.memmove d s n m = (d, moved d s n.toNat m) := by
  have wide : n.toUInt64 = UInt64.ofNat n.toNat := UInt64.toNat_inj.mp (by simp)
  unfold Kernel.memmove
  split
  next zero =>
    subst zero
    rfl
  split
  next both => rw [wide, copyDown_of_le hs hd (UInt64.le_of_lt both.1)]
  next up =>
    rw [copyUp_eq (by omega)]
    rw [wide, gt_iff_lt, UInt64.lt_iff_toNat_lt, UInt64.lt_iff_toNat_lt, UInt64.toNat_add,
      UInt64.toNat_ofNat'] at up
    rw [UInt64.toNat_sub, ← UInt64.toNat_inj]
    have := d.toNat_lt
    omega

theorem User.memmove_eq {n : Int32} (pos : 0 ≤ n) (hs : s.toNat + n.toInt.toNat ≤ 2 ^ 64)
    (hd : d.toNat + n.toInt.toNat ≤ 2 ^ 64) :
    User.memmove d s n m = (d, moved d s n.toInt.toNat m) := by
  have pos : 0 ≤ n.toInt := Int32.le_iff_toInt_le.mp pos
  have wide : UInt64.ofInt n.toInt = UInt64.ofNat n.toInt.toNat := by
    have lt := n.toInt_lt
    rw [UInt64.ofInt, Int.emod_eq_of_lt pos (by omega)]
  unfold User.memmove
  split
  next up => rw [copyUp_of_le hs hd (UInt64.le_of_lt up)]
  next down => rw [wide, copyDown_of_le hs hd (UInt64.not_lt.mp down)]

/-- For ranges that do not wrap, both `memmove`s (the user's with `n >= 0`) move the bytes, however
they overlap, change nothing else and do the same. -/
theorem memmove_moves (m : Mem) (dst src : UInt64) :
    (∀ n : UInt32, src.toNat + n.toNat ≤ 2 ^ 64 → dst.toNat + n.toNat ≤ 2 ^ 64 →
      (Kernel.memmove dst src n m).1 = dst ∧
        Moved dst src n.toNat m (Kernel.memmove dst src n m).2) ∧
    ∀ n : Int32, 0 ≤ n → src.toNat + n.toInt.toNat ≤ 2 ^ 64 →
      dst.toNat + n.toInt.toNat ≤ 2 ^ 64 →
      (User.memmove dst src n m).1 = dst ∧
        Moved dst src n.toInt.toNat m (User.memmove dst src n m).2 ∧
        User.memmove dst src n m = Kernel.memmove dst src n.toUInt32 m := by
  refine ⟨fun n hs hd => ?_, fun n pos hs hd => ?_⟩
  · rw [Kernel.memmove_eq hs hd]
    exact ⟨rfl, moved_moved hd⟩
  · have same : n.toUInt32.toNat = n.toInt.toNat := Int32.toNat_toUInt32_of_le pos
    rw [User.memmove_eq pos hs hd]
    refine ⟨rfl, moved_moved hd, ?_⟩
    rw [← same] at hs hd ⊢
    exact (Kernel.memmove_eq hs hd).symm

/-- Four bytes move up by one, over themselves. -/
theorem memmove_moves_overlap :
    (Kernel.memmove 11 10 4 fun a => a.toUInt8).2 (11 + UInt64.ofNat 3) = 13 :=
  ((memmove_moves (fun a => a.toUInt8) 11 10).1 4 (by decide) (by decide)).2.copied 3 (by decide)

end Xv6.Memmove
