import Xv6.Fs.Blocks

/-! States to start from: a file system with the root directory and some empty files in it, and a
process that has references to inodes of which none has been read. -/

namespace Xv6.Fs

open Superblock

section Start

variable {sb : Superblock} {s : State} {x m : Nat}

/-- No entry of the inode table holds a copy. -/
def Unread (s : State) : Prop := ∀ i, (s.itable i).valid = false

theorem Unread.node (unread : Unread s) (x : Nat) : node sb s x = sb.inode s.disk x := by
  refine node_of_none fun i cached => ?_
  have valid := cached.2.1
  rw [unread i] at valid
  cases valid

/-- The first process, with a reference to each of the first `m` inodes; the root is its current
directory. -/
def start (d : Disk) (m : Nat) : State where
  disk := d
  itable := fun i =>
    if i.val < m then ⟨rootdev, i.val + 1, 1, none, false, Dinode.zero⟩ else Itable.init i
  ftable := fun _ => ⟨.none, 0, false, false, 0, 0, 0⟩
  cwd := Function.update (fun _ => none) 0 (some 0)
  cur := 0

def startRefs (m : Nat) : Slot → Nat := fun i => if i.val < m then 1 else 0

theorem start_entry (d : Disk) {i : Slot} (pos : 0 < startRefs m i) : i.val < m ∧
    (start d m).itable i = ⟨rootdev, i.val + 1, 1, none, false, Dinode.zero⟩ := by
  by_cases lt : i.val < m
  · exact ⟨lt, if_pos lt⟩
  · rw [startRefs, if_neg lt] at pos
    exact absurd pos (lt_irrefl 0)

theorem start_unread (d : Disk) (m : Nat) : Unread (start d m) := by
  intro i
  unfold start
  dsimp only
  split <;> rfl

theorem start_table (d : Disk) (lt : m < sb.ninodes) : Table sb (startRefs m) none (start d m) := by
  have unread {i : Slot} {P : Prop} (v : ((start d m).itable i).valid = true) : P := by
    rw [start_unread] at v
    cases v
  refine ⟨fun i => ?_, fun i hi => ?_, fun i hi => ?_, fun i j hi hj same => ?_,
    fun i _ v => unread v, fun i _ v _ => unread v⟩
  · unfold start startRefs
    dsimp only
    split <;> rfl
  · rw [(start_entry d hi).2]
  · obtain ⟨in_, eq⟩ := start_entry d hi
    rw [eq]
    show i.val + 1 < sb.ninodes
    omega
  · rw [(start_entry d hi).2, (start_entry d hj).2] at same
    exact Fin.ext (Nat.succ.inj same)

end Start

abbrev zeroBlock : Block := fun _ => 0

theorem readLe_zeroBlock (off : Nat) : ∀ width, Bytes.readLe zeroBlock off width = 0
  | 0 => rfl
  | width + 1 => by
    rw [Bytes.readLe, readLe_zeroBlock (off + 1) width, Bytes.byteAt]
    split <;> rfl

theorem readDinode_zeroBlock (o : Nat) : readDinode zeroBlock o = Dinode.zero := by
  simp only [readDinode, Bytes.get16, Bytes.get32, readLe_zeroBlock]
  rfl

section Disk

variable (sb : Superblock) (n : Nat)

/-- The free map with the first `n` blocks in use. -/
def mapDisk : Disk := (List.range n).foldl sb.markUsed fun _ => zeroBlock

/-- The root directory, with one block for its entries. -/
def rootDir : Dinode :=
  Dinode.setAddr { Dinode.zero with type := tDir, nlink := 1, size := UInt32.ofNat (16 * (n + 2)) }
    0 (UInt32.ofNat sb.nmeta)

def emptyFile : Dinode := { Dinode.zero with type := tFile, nlink := 1 }

/-- The name of the file with inode `x`: `B` for inode 2, and so on. -/
def fileName (x : Nat) : Name := [UInt8.ofNat (64 + x)]

def rootBlock : Block := fun j =>
  (dirent rootino dot ++ dirent rootino dotdot ++
    (List.range n).flatMap fun k => dirent (n + 1 - k) (fileName (n + 1 - k))).getD j.val 0

/-- The inodes after the root are empty files. -/
def addFiles (d : Disk) : Nat → Disk
  | 0 => d
  | n + 1 => sb.setInode (addFiles d n) (n + 2) emptyFile

/-- The disk with `n` empty files in the root directory. -/
def filesDisk : Disk :=
  setBlock (addFiles sb (sb.setInode (mapDisk sb (sb.nmeta + 1)) rootino (rootDir sb n)) n)
    sb.nmeta (rootBlock n)

/-- The entries of the root are for the root and the files. -/
def Named : Prop := ∀ k < n + 2, 0 < deInum (slice (rootBlock n) (16 * k) 16) ∧
  deInum (slice (rootBlock n) (16 * k) 16) < n + 2

instance : Decidable (Named n) := inferInstanceAs (Decidable (∀ k < n + 2, _))

variable {sb} {n} {x b : Nat}

theorem rootDir_size (small : n + 2 ≤ 64) : (rootDir sb n).size.toNat = 16 * (n + 2) :=
  UInt32.toNat_ofNat_of_lt' (show 16 * (n + 2) < 2 ^ 32 by omega)

theorem mapDisk_succ : mapDisk sb (n + 1) = sb.markUsed (mapDisk sb n) n := by
  rw [mapDisk, List.range_succ, List.foldl_append]
  rfl

theorem bit_mapDisk : sb.bit (mapDisk sb n) b = decide (b < n) := by
  induction n with
  | zero =>
    rw [decide_eq_false (Nat.not_lt_zero b), Bool.eq_false_iff, ne_eq, bit_iff]
    have zero : Bytes.byteAt (mapDisk sb 0 (sb.bblock b)) (b % bpb / 8) = 0 := by
      unfold Bytes.byteAt
      split <;> rfl
    rw [zero, UInt8.zero_and]
    exact fun ne => ne rfl
  | succ n ih =>
    rw [mapDisk_succ]
    by_cases eq : b = n
    · rw [eq, bit_markUsed, decide_eq_true (Nat.lt_succ_self n)]
    · rw [bit_markUsed_ne eq, ih, decide_eq_decide]
      omega

theorem inode_mapDisk (lt : x < sb.ninodes) : sb.inode (mapDisk sb n) x = Dinode.zero := by
  induction n with
  | zero => exact readDinode_zeroBlock _
  | succ n ih => rw [mapDisk_succ, inode_markUsed lt, ih]

theorem inode_addFiles (d : Disk) :
    sb.inode (addFiles sb d n) x = if 2 ≤ x ∧ x < n + 2 then emptyFile else sb.inode d x := by
  induction n with
  | zero => rw [if_neg (by omega), addFiles]
  | succ n ih =>
    by_cases last : x = n + 2
    · rw [addFiles, last, inode_setInode, if_pos (by omega)]
    · rw [addFiles, inode_setInode_ne last, ih]
      exact if_congr (by omega) rfl rfl

theorem bit_addFiles (d : Disk) (fit : n + 2 ≤ sb.ninodes) :
    sb.bit (addFiles sb d n) b = sb.bit d b := by
  induction n with
  | zero => rfl
  | succ n ih => rw [addFiles, bit_setInode (by omega), ih (by omega)]

theorem files_inode (lt : x < sb.ninodes) : sb.inode (filesDisk sb n) x =
    if x = rootino then rootDir sb n else if 2 ≤ x ∧ x < n + 2 then emptyFile else Dinode.zero := by
  rw [filesDisk, inode_setBlock lt (Nat.le_of_lt bmapstart_lt_nmeta),
    inode_addFiles]
  by_cases root : x = rootino
  · subst root
    rw [if_neg fun c => absurd c.1 (by decide), inode_setInode, if_pos rfl]
  · rw [inode_setInode_ne root, inode_mapDisk lt, if_neg root]

theorem files_bit (fit : n + 2 ≤ sb.ninodes) (lt : b < sb.size) :
    sb.bit (filesDisk sb n) b = decide (b ≤ sb.nmeta) := by
  rw [filesDisk, bit_setBlock lt le_rfl, bit_addFiles _ fit,
    bit_setInode sb.root_lt, bit_mapDisk, decide_eq_decide]
  omega

end Disk

section Volume

variable {sb : Superblock} {s : State} {n x : Nat} (unread : Unread s)
  (disk : s.disk = filesDisk sb n)

include unread disk

theorem files_node (lt : x < sb.ninodes) : node sb s x =
    if x = rootino then rootDir sb n else if 2 ≤ x ∧ x < n + 2 then emptyFile else Dinode.zero := by
  rw [unread.node, disk, files_inode lt]

theorem files_root : Alive sb s rootino ∧ node sb s rootino = rootDir sb n := by
  have root := files_node unread disk sb.root_lt
  rw [if_pos rfl] at root
  exact ⟨⟨sb.root_lt, by rw [root]; exact show tDir ≠ 0 by decide⟩, root⟩

theorem files_other (a : Alive sb s x) (other : x ≠ rootino) : node sb s x = emptyFile := by
  have typed := a.2
  rw [files_node unread disk a.1, if_neg other] at typed ⊢
  by_contra ne
  rw [ite_eq_left_iff, not_forall] at ne
  exact typed (by rw [if_neg ne.1]; rfl)

variable (room : sb.nmeta < sb.size) (fit : n + 2 ≤ sb.ninodes)

include room

theorem files_slots (p : Nat × Nat) :
    slots sb s p = if p = (rootino, 0) then sb.nmeta else 0 := by
  obtain ⟨x, k⟩ := p
  by_cases a : Alive sb s x
  · by_cases root : x = rootino
    · subst root
      rw [slots_of_alive a, (files_root unread disk).2]
      by_cases first : k = 0
      · subst first
        rw [if_pos rfl, show addrAt s.disk (rootDir sb n) 0 = _ from addrAt_direct 0]
        exact toNat_ofNat_block room
      · rw [if_neg fun e => first (congrArg Prod.snd e), addrAt]
        split
        · rename_i lt
          have ne : (⟨k, lt⟩ : Fin (ndirect + 1)) ≠ 0 := fun e => first (congrArg Fin.val e)
          rw [show (rootDir sb n).addrs ⟨k, lt⟩ = 0 from setAddr_ne ne]
          rfl
        · have none : (rootDir sb n).addrs (Fin.last ndirect) = 0 := setAddr_ne (by decide)
          exact if_neg fun c => c.1 none
    · rw [slots_of_alive a, files_other unread disk a root,
        if_neg fun e => root (congrArg Prod.fst e), addrAt]
      split
      · rfl
      · exact if_neg fun c => c.1 rfl
  · have other : x ≠ rootino := fun root => a (root ▸ (files_root unread disk).1)
    rw [slots_of_dead a, if_neg fun e => other (congrArg Prod.fst e)]

theorem files_entry (small : n + 2 ≤ 64) (lt : k < n + 2) :
    entryAt sb s rootino k = slice (rootBlock n) (16 * k) 16 := by
  have first : slots sb s (rootino, 0) = sb.nmeta := by
    rw [files_slots unread disk room, if_pos rfl]
  rw [slots_of_alive (files_root unread disk).1] at first
  rw [entryAt, Nat.div_eq_of_lt (by omega), show dataSlot 0 = 0 from rfl, first, disk, filesDisk,
    setBlock_same, Nat.mod_eq_of_lt (by omega)]

include fit in
/-- The blocks and the directory are in order, if the directory has one block. -/
theorem files_volume (small : n + 2 ≤ 64) (named : Named n) : Volume sb s := by
  have slot : ∀ p, slots sb s p ≠ 0 → p = (rootino, 0) ∧ slots sb s p = sb.nmeta := by
    intro p ne
    rw [files_slots unread disk room] at ne ⊢
    split at ne
    · exact ⟨‹_›, if_pos ‹_›⟩
    · exact absurd rfl ne
  have bit {b : Nat} (lt : b < sb.size) : sb.bit s.disk b = decide (b ≤ sb.nmeta) := by
    rw [disk, files_bit fit lt]
  have first : slots sb s (rootino, 0) = sb.nmeta := by
    rw [files_slots unread disk room, if_pos rfl]
  obtain ⟨a, root⟩ := files_root unread disk
  have size := @rootDir_size sb _ small
  rw [slots_of_alive a, root] at first
  refine ⟨⟨nmeta_pos, fun p hp => ?_, fun p hp => ?_, fun p q hp eq => ?_,
    fun b lb ub used => ?_⟩, fun b hb => ?_, fun y bn alive hbn => ?_, fun y k alive dir hk => ?_⟩
  · rw [(slot p hp).2]
    exact ⟨le_rfl, room⟩
  · rw [(slot p hp).2, bit room]
    exact decide_eq_true le_rfl
  · rw [(slot p hp).1, (slot q (by rwa [← eq])).1]
  · have le : b ≤ sb.nmeta := of_decide_eq_true ((bit ub).symm.trans used)
    refine ⟨(rootino, 0), ?_⟩
    rw [slots_of_alive a, root, first]
    omega
  · exact (bit (by omega)).trans (decide_eq_true (by omega))
  · by_cases other : y = rootino
    · subst other
      rw [root, size] at hbn
      obtain rfl : bn = 0 := by
        simp only [bsize] at hbn
        omega
      rw [root]
      exact ⟨by decide, fun zero => Nat.ne_of_gt nmeta_pos (first.symm.trans zero)⟩
    · rw [files_other unread disk alive other] at hbn
      exact absurd hbn (Nat.not_lt_zero _)
  · obtain rfl : y = rootino := by
      by_contra other
      rw [files_other unread disk alive other] at dir
      exact absurd dir (by decide)
    rw [root, size] at hk
    have lt : k < n + 2 := by omega
    rw [files_entry unread disk room small lt]
    exact lt_of_lt_of_le (named k lt).2 fit

end Volume

/-- A file system of sixteen blocks and 64 inodes. -/
def smallFs : Superblock where
  size := 16
  ninodes := 64
  inodestart := 1
  bmapstart := 5
  inodes_fit := by decide
  map_fits := by decide
  size_lt := by decide
  ninodes_le := by decide
  root_lt := by decide

/-- The small file system with `n` files, and a process that has `m` inodes. -/
abbrev small (n m : Nat) : State := start (filesDisk smallFs n) m

theorem small_low (files : n + 2 ≤ 64) (held : m < 64) (named : Named n) :
    Low smallFs (startRefs m) none (small n m) :=
  ⟨start_table _ held, files_volume (start_unread _ _) rfl (by decide) files files named⟩

/-- The process has locked the inode of entry `i` and read it. -/
def lockedSmall (n m : Nat) (i : Slot) : State :=
  (small n m).setInode i
    ⟨rootdev, i.val + 1, 1, some 0, true, smallFs.inode (filesDisk smallFs n) (i.val + 1)⟩

theorem lockedSmall_low {i : Slot} (low : Low smallFs (startRefs m) none (small n m))
    (held : i.val < m) (typed : (smallFs.inode (filesDisk smallFs n) (i.val + 1)).type ≠ 0) :
    Low smallFs (Function.update (startRefs m) i 1) none (lockedSmall n m i) := by
  have pos : 0 < startRefs m i := by
    rw [startRefs, if_pos held]
    exact one_pos
  have entry := (start_entry (filesDisk smallFs n) pos).2
  have quiet := low.setInode (i := i) (n := 1)
    ⟨rootdev, i.val + 1, 1, some 0, true, smallFs.inode (filesDisk smallFs n) (i.val + 1)⟩ rfl
    (fun _ => pos) (by rw [entry]) (by rw [entry]) (fun _ => rfl) fun _ => ⟨rfl, typed⟩
  exact quiet.low

end Xv6.Fs
