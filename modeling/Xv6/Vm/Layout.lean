import Mathlib

/-! Addresses and page-table entries: the macros of `kernel/riscv.h` and `kernel/memlayout.h`, with
what they compute on numbers. -/

namespace Xv6.Vm

abbrev pgsize : UInt64 := 4096

/-- The flags of a page-table entry: valid, readable, writable, executable, user. -/
abbrev pteV : UInt64 := 1
abbrev pteR : UInt64 := 2
abbrev pteW : UInt64 := 4
abbrev pteX : UInt64 := 8
abbrev pteU : UInt64 := 16

def pa2pte (pa : UInt64) : UInt64 := (pa >>> 12) <<< 10

def pte2pa (pte : UInt64) : UInt64 := (pte >>> 10) <<< 12

def pteFlags (pte : UInt64) : UInt64 := pte &&& 0x3FF

instance px_neZero : NeZero 512 := ⟨by decide⟩

def px (level : Nat) (va : UInt64) : Fin 512 :=
  ⟨((va >>> UInt64.ofNat (12 + 9 * level)) &&& 0x1FF).toNat, by
    rw [UInt64.toNat_and]
    exact lt_of_le_of_lt Nat.and_le_right (by decide)⟩

def pgroundup (sz : UInt64) : UInt64 := (sz + pgsize - 1) &&& ~~~(pgsize - 1)

def pgrounddown (a : UInt64) : UInt64 := a &&& ~~~(pgsize - 1)

abbrev maxva : UInt64 := (1 : UInt64) <<< (9 + 9 + 9 + 12 - 1)

/-- `TRAMPOLINE` and `TRAPFRAME`, the two highest pages. -/
abbrev trampolineVa : UInt64 := maxva - pgsize
abbrev trapframeVa : UInt64 := trampolineVa - pgsize

abbrev kernbase : UInt64 := 0x80000000

abbrev phystop : UInt64 := kernbase + 128 * 1024 * 1024

/-- What the linker decides: the address `end` after the kernel, and that of the trampoline page in
its text. -/
structure Symbols where
  end_ : UInt64
  trampoline : UInt64
  aligned : trampoline.toNat % 4096 = 0
  kernbase_le : kernbase ≤ trampoline
  trampoline_lt : trampoline < end_
  end_le : end_ ≤ phystop

section Lemmas

variable {pa pte fl va sz : UInt64}

theorem pa2pte_toNat : (pa2pte pa).toNat = pa.toNat / 4096 * 1024 := by
  have := pa.toNat_lt
  simp only [pa2pte, UInt64.toNat_shiftLeft, UInt64.toNat_shiftRight]
  simp [Nat.shiftLeft_eq, Nat.shiftRight_eq_div_pow]
  omega

theorem pte2pa_toNat : (pte2pa pte).toNat = pte.toNat / 1024 * 4096 % 2 ^ 64 := by
  simp only [pte2pa, UInt64.toNat_shiftLeft, UInt64.toNat_shiftRight]
  simp [Nat.shiftLeft_eq, Nat.shiftRight_eq_div_pow]

theorem pteFlags_toNat : (pteFlags pte).toNat = pte.toNat % 1024 := by
  rw [pteFlags, UInt64.toNat_and]
  exact Nat.and_two_pow_sub_one_eq_mod _ 10

theorem entry_toNat (h : fl.toNat < 1024) :
    (pa2pte pa ||| fl).toNat = pa.toNat / 4096 * 1024 + fl.toNat := by
  rw [UInt64.toNat_or, pa2pte_toNat, mul_comm, ← Nat.two_pow_add_eq_or_of_lt (i := 10) h]

theorem pte2pa_entry (aligned : pa.toNat % 4096 = 0) (small : pa.toNat < 2 ^ 56)
    (h : fl.toNat < 1024) : pte2pa (pa2pte pa ||| fl) = pa := by
  apply UInt64.toNat_inj.mp
  rw [pte2pa_toNat, entry_toNat h]
  omega

theorem pteFlags_entry (h : fl.toNat < 1024) : pteFlags (pa2pte pa ||| fl) = fl := by
  apply UInt64.toNat_inj.mp
  rw [pteFlags_toNat, entry_toNat h]
  omega

theorem and_flags (h : 0x3FF &&& c = c) : pte &&& c = pteFlags pte &&& c := by
  rw [pteFlags, UInt64.and_assoc, h]

theorem and_toNat_div {a m : UInt64} (h : m.toNat / 2 ^ k = 2 ^ (64 - k) - 1)
    (hk : k ≤ 64) : (a &&& m).toNat / 2 ^ k = a.toNat / 2 ^ k := by
  rw [UInt64.toNat_and, Nat.and_div_two_pow, h, Nat.and_two_pow_sub_one_eq_mod]
  apply Nat.mod_eq_of_lt
  rw [Nat.div_lt_iff_lt_mul (by positivity), ← pow_add, Nat.sub_add_cancel hk]
  exact a.toNat_lt

theorem pte2pa_clear : pte2pa (pte &&& ~~~pteU) = pte2pa pte := by
  have high := and_toNat_div (a := pte) (m := ~~~pteU) (k := 10) (by decide) (by decide)
  apply UInt64.toNat_inj.mp
  rw [pte2pa_toNat, pte2pa_toNat]
  omega

theorem pteFlags_clear : pteFlags (pte &&& ~~~pteU) = pteFlags pte &&& ~~~pteU := by
  simp only [pteFlags]
  ac_rfl

theorem px_val (h : level ≤ 2) : (px level va).val = va.toNat / 4096 / 512 ^ level % 512 := by
  have shift : (UInt64.ofNat (12 + 9 * level)).toNat % 64 = 12 + 9 * level := by
    rw [UInt64.toNat_ofNat']
    omega
  simp only [px, UInt64.toNat_and, UInt64.toNat_shiftRight, shift]
  rw [show (0x1FF : UInt64).toNat = 2 ^ 9 - 1 from rfl, Nat.and_two_pow_sub_one_eq_mod,
    Nat.shiftRight_eq_div_pow, pow_add, pow_mul, Nat.div_div_eq_div_mul]
  norm_num

theorem pgrounddown_toNat : (pgrounddown va).toNat = va.toNat / 4096 * 4096 := by
  have high := and_toNat_div (a := va) (m := ~~~(pgsize - 1)) (k := 12) (by decide) (by decide)
  have low : (pgrounddown va).toNat % 2 ^ 12 = 0 := by
    rw [pgrounddown, UInt64.toNat_and, Nat.and_mod_two_pow,
      show (~~~(pgsize - 1)).toNat % 2 ^ 12 = 0 by decide, Nat.and_zero]
  rw [pgrounddown] at low ⊢
  omega

theorem pgroundup_toNat (h : sz.toNat ≤ 2 ^ 64 - 4096) :
    (pgroundup sz).toNat = (sz.toNat + 4095) / 4096 * 4096 := by
  have up : (sz + pgsize - 1).toNat = sz.toNat + 4095 := by
    rw [show sz + pgsize - 1 = sz + 4095 by grind, UInt64.toNat_add]
    exact Nat.mod_eq_of_lt (by simp; omega)
  rw [show pgroundup sz = pgrounddown (sz + pgsize - 1) from rfl, pgrounddown_toNat, up]

end Lemmas

end Xv6.Vm
