import Mathlib

/-! Blocks of bytes and the little-endian fields in them. -/

namespace Bytes

variable {size off width : Nat} {b : Fin size → UInt8}

/-- The byte at offset `i`, and 0 past the end. -/
def byteAt (b : Fin size → UInt8) (i : Nat) : UInt8 := if h : i < size then b ⟨i, h⟩ else 0

/-- The block after a store of `v` at offset `i`; a store past the end changes nothing. -/
def setByte (b : Fin size → UInt8) (i : Nat) (v : UInt8) : Fin size → UInt8 :=
  fun j => if j.val = i then v else b j

theorem byteAt_setByte_same (h : i < size) : byteAt (setByte b i v) i = v := by
  simp [byteAt, setByte, h]

theorem byteAt_setByte_ne (h : j ≠ i) : byteAt (setByte b i v) j = byteAt b j := by
  simp [byteAt, setByte, h]

/-- The number held, low byte first, by the `width` bytes from `off` on. -/
def readLe (b : Fin size → UInt8) (off : Nat) : Nat → Nat
  | 0 => 0
  | width + 1 => (byteAt b off).toNat + 256 * readLe b (off + 1) width

/-- The block with the low `width` bytes of `v` stored, low byte first, from `off` on. -/
def writeLe (b : Fin size → UInt8) (off : Nat) : Nat → Nat → Fin size → UInt8
  | 0, _ => b
  | width + 1, v => writeLe (setByte b off (UInt8.ofNat v)) (off + 1) width (v / 256)

theorem byteAt_writeLe
    (h : j < off ∨ off + width ≤ j) : byteAt (writeLe b off width v) j = byteAt b j := by
  induction width generalizing b off v with
  | zero => rfl
  | succ width ih =>
    rw [writeLe, ih (by omega), byteAt_setByte_ne (by omega)]

theorem readLe_congr {b' : Fin size → UInt8}
    (h : ∀ j, off ≤ j → j < off + width → byteAt b j = byteAt b' j) :
    readLe b off width = readLe b' off width := by
  induction width generalizing off with
  | zero => rfl
  | succ width ih =>
    rw [readLe, readLe, h off (by omega) (by omega), ih fun j hl hu => h j (by omega) (by omega)]

theorem readLe_writeLe_disjoint (h : off' + width' ≤ off ∨ off + width ≤ off') :
    readLe (writeLe b off width v) off' width' = readLe b off' width' :=
  readLe_congr fun j hl hu => byteAt_writeLe (by omega)

theorem readLe_writeLe_same (h : off + width ≤ size) :
    readLe (writeLe b off width v) off width = v % 256 ^ width := by
  induction width generalizing b off v with
  | zero => simp [readLe, Nat.mod_one]
  | succ width ih =>
    rw [readLe, writeLe, byteAt_writeLe (by omega), byteAt_setByte_same (by omega),
      ih (by omega), UInt8.toNat_ofNat', Nat.pow_succ 256 width, Nat.mul_comm (256 ^ width) 256,
      Nat.mod_mul]

def leByte (v k : Nat) : UInt8 := UInt8.ofNat (v / 256 ^ k)

theorem readLe_of_leByte (h : ∀ k, k < width → byteAt b (off + k) = leByte v k) :
    readLe b off width = v % 256 ^ width := by
  induction width generalizing off v with
  | zero => simp [readLe, Nat.mod_one]
  | succ width ih =>
    have hrest : readLe b (off + 1) width = v / 256 % 256 ^ width := by
      refine ih fun k hk => ?_
      have hk' := h (k + 1) (by omega)
      rw [show off + 1 + k = off + (k + 1) by omega, hk', leByte, leByte, Nat.pow_succ',
        Nat.div_div_eq_div_mul]
    rw [readLe, hrest, show byteAt b off = leByte v 0 from h 0 (by omega), leByte, Nat.pow_zero,
      Nat.div_one, UInt8.toNat_ofNat', Nat.pow_succ 256 width, Nat.mul_comm (256 ^ width) 256,
      Nat.mod_mul]

def get16 (b : Fin size → UInt8) (off : Nat) : UInt16 := UInt16.ofNat (readLe b off 2)

def get32 (b : Fin size → UInt8) (off : Nat) : UInt32 := UInt32.ofNat (readLe b off 4)

def set32 (b : Fin size → UInt8) (off : Nat) (v : UInt32) : Fin size → UInt8 :=
  writeLe b off 4 v.toNat

theorem get16_of_leByte
    (h : ∀ k, k < 2 → byteAt b (off + k) = leByte v.toNat k) : get16 b off = v := by
  rw [get16, readLe_of_leByte h, Nat.mod_eq_of_lt (by have := v.toNat_lt; omega)]
  simp

theorem get32_of_leByte
    (h : ∀ k, k < 4 → byteAt b (off + k) = leByte v.toNat k) : get32 b off = v := by
  rw [get32, readLe_of_leByte h, Nat.mod_eq_of_lt (by have := v.toNat_lt; omega)]
  simp

theorem get32_set32_same (h : off + 4 ≤ size) : get32 (set32 b off v) off = v := by
  rw [get32, set32, readLe_writeLe_same h, Nat.mod_eq_of_lt (by have := v.toNat_lt; omega)]
  simp

theorem get32_set32_disjoint
    (h : off' + 4 ≤ off ∨ off + 4 ≤ off') : get32 (set32 b off v) off' = get32 b off' := by
  rw [get32, set32, readLe_writeLe_disjoint h, get32]

end Bytes
