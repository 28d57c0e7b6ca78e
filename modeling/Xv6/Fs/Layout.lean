import Xv6.Inode.Table

/-! The layout of the file system on the disk, as `kernel/fs.h` gives it, with the laws of reading
back what was written. -/

namespace Xv6

/-- `struct superblock` with what makes a layout: inode blocks, free map and data blocks follow each
other. -/
structure Superblock where
  size : Nat
  ninodes : Nat
  inodestart : Nat
  bmapstart : Nat
  inodes_fit : inodestart + (ninodes + ipb - 1) / ipb ≤ bmapstart
  map_fits : bmapstart + size / bpb + 1 ≤ size
  size_lt : size < 2 ^ 31
  ninodes_le : ninodes ≤ 2 ^ 16
  root_lt : rootino < ninodes

namespace Superblock

variable (sb : Superblock)

def nmeta : Nat := sb.bmapstart + sb.size / bpb + 1

def iblock (inum : Nat) : Nat := inum / ipb + sb.inodestart

def bblock (b : Nat) : Nat := b / bpb + sb.bmapstart

end Superblock

def setBlock (d : Disk) (b : Nat) (data : Block) : Disk := fun c => if c = b then data else d c

def readDinode (b : Block) (o : Nat) : Dinode where
  type := (Bytes.get16 b o).toInt16
  major := (Bytes.get16 b (o + 2)).toInt16
  minor := (Bytes.get16 b (o + 4)).toInt16
  nlink := (Bytes.get16 b (o + 6)).toInt16
  size := Bytes.get32 b (o + 8)
  addrs := fun k => Bytes.get32 b (o + 12 + 4 * k)

/-- Byte `k` of `din` as a `struct dinode`. -/
def dinodeByte (din : Dinode) (k : Nat) : UInt8 :=
  if k < 2 then Bytes.leByte din.type.toUInt16.toNat k
  else if k < 4 then Bytes.leByte din.major.toUInt16.toNat (k - 2)
  else if k < 6 then Bytes.leByte din.minor.toUInt16.toNat (k - 4)
  else if k < 8 then Bytes.leByte din.nlink.toUInt16.toNat (k - 6)
  else if k < 12 then Bytes.leByte din.size.toNat (k - 8)
  else Bytes.leByte (din.addrs (Fin.ofNat (ndirect + 1) ((k - 12) / 4))).toNat ((k - 12) % 4)

/-- The block `b` after the fields of `din` are stored in the `struct dinode` at offset `o`. -/
def writeDinode (b : Block) (o : Nat) (din : Dinode) : Block :=
  fun j => if o ≤ j.val ∧ j.val < o + 64 then dinodeByte din (j.val - o) else b j

def bitMask (b : Nat) : UInt8 := 1 <<< UInt8.ofNat (b % 8)

namespace Superblock

variable (sb : Superblock)

def inode (d : Disk) (inum : Nat) : Dinode :=
  readDinode (d (sb.iblock inum)) (64 * (inum % ipb))

def setInode (d : Disk) (inum : Nat) (din : Dinode) : Disk :=
  setBlock d (sb.iblock inum)
    (writeDinode (d (sb.iblock inum)) (64 * (inum % ipb)) din)

def bit (d : Disk) (b : Nat) : Bool :=
  Bytes.byteAt (d (sb.bblock b)) (b % bpb / 8) &&& bitMask (b % bpb) ≠ 0

def markUsed (d : Disk) (b : Nat) : Disk :=
  let data := d (sb.bblock b)
  let bi := b % bpb
  setBlock d (sb.bblock b)
    (Bytes.setByte data (bi / 8) (Bytes.byteAt data (bi / 8) ||| bitMask bi))

def markFree (d : Disk) (b : Nat) : Disk :=
  let data := d (sb.bblock b)
  let bi := b % bpb
  setBlock d (sb.bblock b)
    (Bytes.setByte data (bi / 8) (Bytes.byteAt data (bi / 8) &&& ~~~bitMask bi))

end Superblock

/-! Reading back what was written. -/

section Laws

variable {sb : Superblock} {d : Disk} {b c x y o : Nat} {data : Block} {din : Dinode}

@[simp] theorem setBlock_same : setBlock d b data b = data := if_pos rfl

theorem setBlock_ne (h : c ≠ b) : setBlock d b data c = d c := if_neg h

theorem byteAt_writeDinode (h : o ≤ j ∧ j < o + 64) (fits : o + 64 ≤ bsize) :
    Bytes.byteAt (writeDinode data o din) j = dinodeByte din (j - o) := by
  rw [Bytes.byteAt, dif_pos (by omega), writeDinode, if_pos h]

theorem byteAt_writeDinode_ne (h : j < o ∨ o + 64 ≤ j) :
    Bytes.byteAt (writeDinode data o din) j = Bytes.byteAt data j := by
  unfold Bytes.byteAt writeDinode
  split
  · rw [if_neg (by simp only; omega)]
  · rfl

theorem readDinode_congr {b b' : Block}
    (h : ∀ j, o ≤ j → j < o + 64 → Bytes.byteAt b j = Bytes.byteAt b' j) :
    readDinode b o = readDinode b' o := by
  have get16 : ∀ k, k + 2 ≤ 64 → Bytes.get16 b (o + k) = Bytes.get16 b' (o + k) := fun k hk => by
    rw [Bytes.get16, Bytes.get16,
      Bytes.readLe_congr fun j lj uj => h j (by omega) (by omega)]
  have get32 : ∀ k, k + 4 ≤ 64 → Bytes.get32 b (o + k) = Bytes.get32 b' (o + k) := fun k hk => by
    rw [Bytes.get32, Bytes.get32,
      Bytes.readLe_congr fun j lj uj => h j (by omega) (by omega)]
  unfold readDinode
  rw [show Bytes.get16 b o = _ from get16 0 (by omega), get16 2 (by omega), get16 4 (by omega),
    get16 6 (by omega), get32 8 (by omega)]
  simp only [Dinode.mk.injEq, true_and]
  refine ⟨rfl, funext fun k => ?_⟩
  have hk : k.val < 13 := k.isLt
  rw [add_assoc]
  exact get32 (12 + 4 * k) (by omega)

theorem readDinode_writeDinode (fits : o + 64 ≤ bsize) :
    readDinode (writeDinode data o din) o = din := by
  have byte : ∀ k, k < 64 →
      Bytes.byteAt (writeDinode data o din) (o + k) = dinodeByte din k := fun k hk => by
    rw [byteAt_writeDinode (by omega) fits, Nat.add_sub_cancel_left]
  have get16 : ∀ (v : UInt16) k, k + 2 ≤ 64 →
      (∀ j, j < 2 → dinodeByte din (k + j) = Bytes.leByte v.toNat j) →
      Bytes.get16 (writeDinode data o din) (o + k) = v := fun v k hk h =>
    Bytes.get16_of_leByte fun j hj => by rw [add_assoc, byte _ (by omega), h j hj]
  have get32 : ∀ (v : UInt32) k, k + 4 ≤ 64 →
      (∀ j, j < 4 → dinodeByte din (k + j) = Bytes.leByte v.toNat j) →
      Bytes.get32 (writeDinode data o din) (o + k) = v := fun v k hk h =>
    Bytes.get32_of_leByte fun j hj => by rw [add_assoc, byte _ (by omega), h j hj]
  obtain ⟨type, major, minor, nlink, size, addrs⟩ := din
  unfold readDinode
  simp only [Dinode.mk.injEq]
  refine ⟨?_, ?_, ?_, ?_, ?_, funext fun k => ?_⟩
  · rw [show Bytes.get16 _ o = _ from get16 type.toUInt16 0 (by omega) fun j hj => ?_]
    · simp
    · interval_cases j <;> rfl
  · rw [get16 major.toUInt16 2 (by omega) fun j hj => by interval_cases j <;> rfl]
    simp
  · rw [get16 minor.toUInt16 4 (by omega) fun j hj => by interval_cases j <;> rfl]
    simp
  · rw [get16 nlink.toUInt16 6 (by omega) fun j hj => by interval_cases j <;> rfl]
    simp
  · exact get32 size 8 (by omega) fun j hj => by interval_cases j <;> rfl
  · have hk : k.val < 13 := k.isLt
    rw [add_assoc]
    refine get32 (addrs k) (12 + 4 * k) (by omega) fun j hj => ?_
    unfold dinodeByte
    rw [if_neg (by omega), if_neg (by omega), if_neg (by omega), if_neg (by omega),
      if_neg (by omega), show (12 + 4 * k.val + j - 12) / 4 = k.val by omega,
      show (12 + 4 * k.val + j - 12) % 4 = j by omega, Fin.ofNat_val_eq_self]

theorem bitMask_toBitVec (b : Nat) : (bitMask b).toBitVec = BitVec.twoPow 8 (b % 8) := by
  have h : b % 8 < 8 := Nat.mod_lt _ (by decide)
  unfold bitMask
  generalize b % 8 = m at h
  interval_cases m <;> rfl

theorem and_bitMask_ne_zero (v : UInt8) (b : Nat) :
    v &&& bitMask b ≠ 0 ↔ v.toBitVec.getLsbD (b % 8) = true := by
  have h : b % 8 < 8 := Nat.mod_lt _ (by decide)
  have hpow : BitVec.twoPow 8 (b % 8) ≠ 0#8 := by
    generalize b % 8 = m at h
    interval_cases m <;> decide
  rw [ne_eq, ← UInt8.toBitVec_inj, UInt8.toBitVec_and, bitMask_toBitVec, BitVec.and_twoPow]
  split <;> simp_all

theorem or_bitMask (v : UInt8) (b c : Nat) :
    (v ||| bitMask b) &&& bitMask c ≠ 0 ↔ v &&& bitMask c ≠ 0 ∨ c % 8 = b % 8 := by
  have h : c % 8 < 8 := Nat.mod_lt _ (by decide)
  rw [and_bitMask_ne_zero, and_bitMask_ne_zero, UInt8.toBitVec_or, bitMask_toBitVec]
  simp [h]

namespace Superblock

theorem iblock_lt (hx : x < sb.ninodes) : sb.iblock x < sb.bmapstart := by
  have := sb.inodes_fit
  unfold iblock
  simp only [ipb, bsize] at *
  omega

theorem bmapstart_le_bblock : sb.bmapstart ≤ sb.bblock b := Nat.le_add_left _ _

theorem bblock_lt (hb : b < sb.size) : sb.bblock b < sb.nmeta := by
  unfold bblock nmeta
  have : b / bpb ≤ sb.size / bpb := Nat.div_le_div_right (le_of_lt hb)
  omega

theorem nmeta_le : sb.nmeta ≤ sb.size := sb.map_fits

theorem nmeta_pos : 0 < sb.nmeta := Nat.succ_pos _

theorem bmapstart_lt_nmeta : sb.bmapstart < sb.nmeta := Nat.lt_succ_of_le (Nat.le_add_right _ _)

theorem inode_congr (h : d' (sb.iblock x) = d (sb.iblock x)) : sb.inode d' x = sb.inode d x := by
  rw [inode, inode, h]

theorem bit_congr (h : d' (sb.bblock b) = d (sb.bblock b)) : sb.bit d' b = sb.bit d b := by
  rw [bit, bit, h]

theorem inode_setBlock (hx : x < sb.ninodes) (hb : sb.bmapstart ≤ b) :
    sb.inode (setBlock d b data) x = sb.inode d x :=
  inode_congr (setBlock_ne (Nat.ne_of_lt (lt_of_lt_of_le (iblock_lt hx) hb)))

theorem bit_setBlock (hc : c < sb.size) (hb : sb.nmeta ≤ b) :
    sb.bit (setBlock d b data) c = sb.bit d c :=
  bit_congr (setBlock_ne (Nat.ne_of_lt (lt_of_lt_of_le (bblock_lt hc) hb)))

theorem inode_setInode : sb.inode (sb.setInode d x din) x = din := by
  have : x % ipb < 16 := Nat.mod_lt _ (by decide)
  rw [inode, setInode, setBlock_same, readDinode_writeDinode (by simp only [bsize]; omega)]

theorem inode_setInode_ne (h : y ≠ x) : sb.inode (sb.setInode d x din) y = sb.inode d y := by
  by_cases hb : sb.iblock y = sb.iblock x
  · have ho : y % ipb ≠ x % ipb := by
      unfold iblock at hb
      simp only [ipb, bsize] at *
      omega
    rw [inode, inode, setInode, hb, setBlock_same]
    exact readDinode_congr fun j lj uj => byteAt_writeDinode_ne (by omega)
  · exact inode_congr (setBlock_ne hb)

theorem bit_setInode (hx : x < sb.ninodes) : sb.bit (sb.setInode d x din) b = sb.bit d b :=
  bit_congr (setBlock_ne (Nat.ne_of_gt (lt_of_lt_of_le (iblock_lt hx) bmapstart_le_bblock)))

theorem setInode_data (hx : x < sb.ninodes) (hb : sb.nmeta ≤ b) : sb.setInode d x din b = d b :=
  setBlock_ne (Nat.ne_of_gt (lt_of_lt_of_le (iblock_lt hx)
    (le_trans (le_of_lt bmapstart_lt_nmeta) hb)))

theorem bit_iff : sb.bit d b = true ↔
    Bytes.byteAt (d (sb.bblock b)) (b % bpb / 8) &&& bitMask (b % bpb) ≠ 0 := by
  rw [bit, decide_eq_true_iff]

theorem bit_place_inj (hblock : sb.bblock b = sb.bblock c) (hbyte : b % bpb / 8 = c % bpb / 8)
    (hmask : b % bpb % 8 = c % bpb % 8) : b = c := by
  unfold bblock at hblock
  simp only [bpb, bsize] at *
  omega

theorem byte_lt (b : Nat) : b % bpb / 8 < bsize := by
  simp only [bpb, bsize]
  omega

theorem bit_markUsed : sb.bit (sb.markUsed d b) b = true := by
  rw [bit_iff, markUsed, setBlock_same, Bytes.byteAt_setByte_same (byte_lt b), or_bitMask]
  exact .inr rfl

theorem bit_markUsed_ne (h : c ≠ b) : sb.bit (sb.markUsed d b) c = sb.bit d c := by
  by_cases hblock : sb.bblock c = sb.bblock b
  · rw [Bool.eq_iff_iff, bit_iff, bit_iff, markUsed, hblock, setBlock_same]
    by_cases hbyte : c % bpb / 8 = b % bpb / 8
    · rw [hbyte, Bytes.byteAt_setByte_same (byte_lt b), or_bitMask]
      exact ⟨fun h' => h'.resolve_right fun e => h (bit_place_inj hblock hbyte e), .inl⟩
    · rw [Bytes.byteAt_setByte_ne hbyte]
  · exact bit_congr (setBlock_ne hblock)

theorem inode_markUsed (hx : x < sb.ninodes) : sb.inode (sb.markUsed d b) x = sb.inode d x :=
  inode_setBlock hx bmapstart_le_bblock

theorem markUsed_data (hb : b < sb.size) (hc : sb.nmeta ≤ c) : sb.markUsed d b c = d c :=
  setBlock_ne (Nat.ne_of_gt (lt_of_lt_of_le (bblock_lt hb) hc))

end Superblock

end Laws

end Xv6
