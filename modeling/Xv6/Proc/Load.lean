import Xv6.Vm.Space
import Xv6.Proc.System

/-! The image that `exec` builds: after every step the user pages mapped are those of the size that
it has reached. -/

namespace Xv6.Proc

open Vm Wp

variable {k : Symbols} {m m' : Mem} {R : Multiset Addr} {pt tf : Addr} {E : Stop → Prop}
  {sz : UInt64} {file : List UInt8} {argv : List (List UInt8)}

variable (k) in
/-- The page table `pt` of a process with the trapframe `tf`, with the pages of the size `sz`. -/
def Built (m : Mem) (R : Multiset Addr) (pt tf : Addr) (sz : UInt64) : Prop :=
  ∃ f, User k m R pt f ∧ Top k f tf ∧ f.Covers (pageCount sz) ∧ sz ≤ trapframeVa

theorem pageCount_le (h : sz ≤ trapframeVa) : pageCount sz ≤ trapframePn := by
  rw [UInt64.le_iff_toNat_le, trapframeVa_toNat] at h
  rw [pageCount, trapframePn_eq]
  omega

theorem Top.grown (top : Top k f tf) (grown : f.Grown g lo hi)
    (le : hi ≤ trapframePn) : Top k g tf := by
  rw [trapframePn_eq] at le
  refine ⟨?_, ?_⟩
  · rw [grown.same _ (by rw [trampolinePn_eq]; omega)]
    exact top.trampoline
  · rw [grown.same _ (by rw [trapframePn_eq]; omega)]
    exact top.trapframe

theorem Built.wp_uvmalloc
    (b : Built k m R pt tf sz) (perm : xperm.toNat < 1024)
    (fail : ∀ m', Built k m' R pt tf sz → Kept R m m' → Q 0 m')
    (ok : ∀ r m', r ≠ 0 → r = (if newsz < sz then sz else newsz) → Built k m' R pt tf r →
      Kept R m m' → Q r m') : wp (uvmalloc k pt sz newsz xperm) E Q m := by
  obtain ⟨f, u, top, cov, small⟩ := b
  refine Vm.wp_uvmalloc u (by simp [top.trapframe]) small perm (.inl cov)
    (fun m' u' kept => fail m' ⟨f, u', top, cov, small⟩ kept.left)
    fun r g m' nz hr small' u' grown _ kept => ok r m' nz hr ⟨g, u', ?_, ?_, small'⟩ kept.left
  · exact Top.grown top grown (pageCount_le small')
  · refine grown.covers ?_ cov
    have le : sz ≤ r := by
      rw [hr]
      split
      · exact UInt64.le_refl sz
      · exact UInt64.not_lt.mp ‹_›
    have := UInt64.le_iff_toNat_le.mp le
    rw [pageCount, pageCount]
    omega

theorem Built.wp_copyout (b : Built k m R pt tf sz)
    (next : ∀ r m', Built k m' R pt tf sz → Kept R m m' → Q r m') :
    wp (copyout pt dstva src) E Q m := by
  obtain ⟨f, u, top, rest⟩ := b
  exact Vm.wp_copyout u top fun r m' u' kept => next r m' ⟨f, u', top, rest⟩ kept

theorem Built.wp_loadsegLoop (b : Built k m R pt tf sz) (err : E .loadseg) :
    wp (loadsegLoop file pt va offset size fuel i) E
      (fun _ m' => Built k m' R pt tf sz ∧ Kept R m m') m := by
  induction fuel generalizing m i with
  | zero => exact ⟨b, .refl⟩
  | succ fuel ih =>
    refine wp_ite (fun _ => ?_) fun _ => ⟨b, .refl⟩
    obtain ⟨f, u, top, rest⟩ := b
    refine .seq (wp_walkaddr u.table.toTree (fun _ => ?_) fun e _ he user => ?_)
    · rwa [if_pos rfl]
    refine wp_ite (fun _ => err) fun _ => ?_
    have hx := Map.mem_user (top.user_lt u he user) he
    rw [wp_bind, wp_modify]
    generalize writeBytes _ _ _ = page
    obtain ⟨u1, kept⟩ := u.setUser hx page
    have b1 : Built k _ R pt tf sz := ⟨f, u1, top, rest⟩
    refine wp_ite (fun _ => ⟨b1, kept⟩) fun _ => ?_
    exact (ih b1).mono (fun _ m' h => ⟨h.1, kept.trans h.2⟩) fun _ => id

theorem flags2perm_lt (flags : UInt32) : (flags2perm flags).toNat < 1024 := by
  unfold flags2perm
  split <;> split <;> decide

section

variable (b : Built k m R pt tf sz)

include b

theorem Built.wp_execLoad (err : E .loadseg) : wp (execLoad k file pt phnum off sz) E
      (fun r m' => Built k m' R pt tf r.2 ∧ Kept R m m') m := by
  induction phnum generalizing m off sz with
  | zero => exact ⟨b, .refl⟩
  | succ phnum ih =>
    unfold execLoad
    dsimp only
    generalize readi file off 56 = bytes
    generalize Proghdr.ofBytes bytes = ph
    have stop : wp (return (false, sz) : M (Bool × UInt64)) E
      (fun r m' => Built k m' R pt tf r.2 ∧ Kept R m m') m := ⟨b, .refl⟩
    refine wp_ite (fun _ => stop) fun _ => ?_
    refine wp_ite (fun _ => ih b) fun _ => ?_
    refine wp_ite (fun _ => stop) fun _ => ?_
    refine wp_ite (fun _ => stop) fun _ => ?_
    refine wp_ite (fun _ => stop) fun _ => ?_
    refine .seq (b.wp_uvmalloc (flags2perm_lt _) (fun m1 b1 kept1 => ⟨b1, kept1⟩)
      fun sz1 m1 nz _ b1 kept1 => ?_)
    rw [if_neg nz]
    refine (b1.wp_loadsegLoop err).bind fun ok m2 ⟨b2, kept2⟩ => ?_
    have kept2 := kept1.trans kept2
    refine wp_ite (fun _ => ?_) fun _ => ⟨b2, kept2⟩
    exact (ih b2).mono (fun _ m' h => ⟨h.1, kept2.trans h.2⟩) fun _ => id

theorem Built.wp_execArgs : wp (execArgs pt stackbase argv sp ustack) E
      (fun _ m' => Built k m' R pt tf sz ∧ Kept R m m') m := by
  induction argv generalizing m sp ustack with
  | nil => exact ⟨b, .refl⟩
  | cons arg argv ih =>
    refine wp_ite (fun _ => ⟨b, .refl⟩) fun _ => wp_ite (fun _ => ⟨b, .refl⟩) fun _ => ?_
    refine .seq (b.wp_copyout fun ok m1 b1 kept1 => ?_)
    refine wp_ite (fun _ => ?_) fun _ => ⟨b1, kept1⟩
    exact (ih b1).mono (fun _ m' h => ⟨h.1, kept1.trans h.2⟩) fun _ => id

theorem Built.pgroundup : Built k m R pt tf (pgroundup sz) ∧
    (pgroundup sz).toNat = pageCount sz * 4096 ∧ pageCount sz ≤ trapframePn := by
  obtain ⟨f, u, top, cov, small⟩ := b
  have le := pageCount_le small
  have up : (Vm.pgroundup sz).toNat = pageCount sz * 4096 := by
    rw [UInt64.le_iff_toNat_le, trapframeVa_toNat] at small
    exact pageCount_eq (by omega)
  refine ⟨⟨f, u, top, by rwa [pageCount_aligned up], ?_⟩, up, le⟩
  rw [trapframePn_eq] at le
  rw [UInt64.le_iff_toNat_le, trapframeVa_toNat]
  omega

theorem Built.wp_uvmclear (first : va.toNat = v * 4096) (low : v < pageCount sz)
    (next : ∀ m', Built k m' R pt tf sz → Kept R m m' → Q () m') : wp (uvmclear pt va) E Q m := by
  obtain ⟨f, u, top, cov, small⟩ := b
  have le := pageCount_le small
  refine u.wp_uvmclear first (by omega) ((cov v (by omega)).mpr low)
    fun g m' u' same high kept => next m' ⟨g, u', ⟨?_, ?_⟩, fun w hw => ?_, small⟩ kept
  · rw [high _ (by decide)]
    exact top.trampoline
  · rw [high _ le_rfl]
    exact top.trapframe
  · rw [Ne, same w]
    exact cov w hw

theorem Built.wp_execStack :
    wp (execStack k pt sz argv) E (fun r m' => Built k m' R pt tf r.1 ∧ Kept R m m') m := by
  obtain ⟨b0, up, le⟩ := b.pgroundup
  rw [trapframePn_eq] at le
  unfold execStack
  dsimp only
  generalize Vm.pgroundup sz = base at *
  generalize hnew : base + (userStack + 1) * pgsize = new
  have size : new.toNat = (pageCount sz + 2) * 4096 := by
    rw [← hnew, UInt64.toNat_add, show ((userStack + 1) * pgsize).toNat = 8192 by decide]
    omega
  refine .seq (b0.wp_uvmalloc (by decide) (fun m1 b1 kept1 => ⟨b1, kept1⟩)
    fun r m1 nz hr b1 kept1 => ?_)
  have ge : ¬new < base := by
    rw [UInt64.lt_iff_toNat_lt]
    omega
  rw [if_neg ge] at hr
  subst hr
  rw [if_neg nz]
  have guard : (r - (userStack + 1) * pgsize).toNat = pageCount sz * 4096 := by
    rw [← hnew, show base + (userStack + 1) * pgsize - (userStack + 1) * pgsize = base by grind, up]
  have count : pageCount r = pageCount sz + 2 := pageCount_aligned size
  refine .seq (b1.wp_uvmclear guard (by omega) fun m2 b2 kept2 => ?_)
  have kept2 := kept1.trans kept2
  refine b2.wp_execArgs.bind fun res m3 ⟨b3, kept3⟩ => ?_
  have kept3 := kept2.trans kept3
  rcases res with - | ⟨sp, ustack⟩
  · exact ⟨b3, kept3⟩
  refine wp_ite (fun _ => ⟨b3, kept3⟩) fun _ => ?_
  refine .seq (b3.wp_copyout fun ok m4 b4 kept4 => ?_)
  exact wp_ite (fun _ => ⟨b4, kept3.trans kept4⟩) fun _ => ⟨b4, kept3.trans kept4⟩

end

theorem Built.wp_execImage (b : Built k m R pt tf 0)
    (err : E .loadseg) : wp (execImage k file elf pt argv) E
      (fun r m' => Built k m' R pt tf r.1 ∧ Kept R m m') m := by
  refine (b.wp_execLoad err).bind fun ⟨ok, sz⟩ m1 ⟨b1, kept1⟩ => ?_
  refine wp_ite (fun _ => ?_) fun _ => ⟨b1, kept1⟩
  exact b1.wp_execStack.mono (fun _ m' h => ⟨h.1, kept1.trans h.2⟩) fun _ => id

end Xv6.Proc
