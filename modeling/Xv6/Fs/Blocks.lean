import Xv6.Fs.Inodes

/-! The blocks of files, in the slots of an inode whose copy in the table is ahead of the disk. -/

namespace Xv6.Fs

open Wp Function Superblock

variable {sb : Superblock} {h : Slot → Nat} {dirty : Option Slot} {s s' s'' : State} {i j : Slot}
  {x y k b bn : Nat} {din : Dinode} {E : Stop → Prop} {Q : UInt32 → State → Prop} {a : UInt32}

section Copy

theorem State.setDin_ne (e : j ≠ i) : (s.setDin i din).itable j = s.itable j :=
  State.setInode_ne e

theorem State.setDin_same : (s.setDin i din).itable i = { s.itable i with din := din } :=
  State.setInode_same

@[simp] theorem State.din_setDin : (s.setDin i din).din i = din := by
  rw [State.din, State.setDin_same]

section

variable (T : Table sb h dirty s) (hd : dirty = none ∨ dirty = some i) (hi : 0 < h i)

include T hd hi

theorem Table.setDin (typed : din.type ≠ 0) : Table sb h (some i) (s.setDin i din) := by
  have T' : Table sb (update h i (h i)) (some i) (s.setDin i din) := by
    have weaker : ∀ j, j ≠ i → some i ≠ some j → dirty ≠ some j := fun j _ ne => by
      rcases hd with rfl | rfl
      · exact nofun
      · exact ne
    refine T.set (i := i) rfl (fun j ji => State.setDin_ne ji) ?_ ?_ ?_ ?_ ?_ ?_ weaker
    all_goals simp only [State.setDin_same, State.din_setDin]
    · exact T.ref_eq i
    · exact T.dev_eq i
    · exact T.inum_lt i
    · exact fun _ j ji hj e => ji (T.unique j i hj hi e)
    · exact fun _ _ => typed
    · exact fun _ _ ne => absurd rfl ne
  rwa [update_eq_self] at T'

theorem Table.node_setDin (v : (s.itable i).valid = true) (typed : din.type ≠ 0) :
    node sb (s.setDin i din) (s.itable i).inum = din := by
  have T' := T.setDin hd hi typed
  have c := T'.node_valid hi (by rwa [State.setDin_same])
  rwa [State.setDin_same, State.din_setDin] at c

theorem Table.node_setDin_ne (typed : din.type ≠ 0) (ne : y ≠ (s.itable i).inum) :
    node sb (s.setDin i din) y = node sb s y := by
  refine node_set (i := i) T (T.setDin hd hi typed) rfl (fun j ji => State.setDin_ne ji) ?_ ?_
  · intro c
    exact absurd (by rw [← c.2.2, State.setDin_same]) ne
  · intro c
    exact absurd c.2.2.symm ne

theorem Table.frame_setDin (v : (s.itable i).valid = true) (din : Dinode)
    (type : din.type = (s.din i).type) : Frame sb h s (s.setDin i din) := by
  have typed : din.type ≠ 0 := by rw [type]; exact T.typed i hi v
  refine ⟨rfl, rfl, rfl, fun j _ => ?_, fun j _ v => ?_, fun j hj _ => ?_⟩
  · by_cases ji : j = i
    · rw [ji, State.setDin_same]
    · rw [State.setDin_ne ji]
  · by_cases ji : j = i
    · rwa [ji, State.setDin_same, ← ji]
    · rwa [State.setDin_ne ji]
  · by_cases e : (s.itable j).inum = (s.itable i).inum
    · rw [e, T.node_setDin hd hi v typed, T.node_valid hi v, type]
    · rw [T.node_setDin_ne hd hi typed e]

/-- The state after `iupdate`. -/
def State.flush (sb : Superblock) (s : State) (i : Slot) : State :=
  s.setDisk (sb.setInode s.disk (s.itable i).inum (s.din i))

theorem Table.flush :
    Table sb h none (s.flush sb i) := by
  refine { T with clean := fun j hj v _ => ?_ }
  by_cases ji : j = i
  · rw [ji]
    exact inode_setInode.symm
  · have ne : (s.itable j).inum ≠ (s.itable i).inum := fun e => ji (T.unique j i hj hi e)
    have c := T.clean j hj v (by rcases hd with rfl | rfl <;> simp [Ne.symm ji])
    exact c.trans (inode_setInode_ne ne).symm

theorem Table.node_flush (v : (s.itable i).valid = true) (y : Nat) :
    node sb (s.flush sb i) y = node sb s y := by
  have T' := T.flush hd hi
  by_cases c : ∃ j, s.Cached j y
  · obtain ⟨j, c⟩ := c
    have c' : (s.flush sb i).Cached j y := c
    rw [T.node_cached c, T'.node_cached c']
    rfl
  · have none : ∀ j, ¬s.Cached j y := fun j cj => c ⟨j, cj⟩
    have ne : y ≠ (s.itable i).inum := fun e => none i (T.cached_iff.mpr ⟨hi, v, e.symm⟩)
    rw [node_of_none none, node_of_none (s := s.flush sb i) none]
    exact inode_setInode_ne ne

end

theorem Blocks.sameFile (B : Blocks sb s) (node : node sb s' y = node sb s y)
    (data : ∀ b, sb.nmeta ≤ b → b < sb.size → s'.disk b = s.disk b) : SameFile sb s s' y :=
  ⟨node, fun _ _ hk => data _ (B.owned.bounds _ hk).1 (B.owned.bounds _ hk).2⟩

theorem Base.flush (B : Base sb h dirty s) (hd : dirty = none ∨ dirty = some i) (hi : 0 < h i)
    (v : (s.itable i).valid = true) : Base sb h none (s.flush sb i) ∧
      ∀ y, y < sb.ninodes → SameFile sb s (s.flush sb i) y := by
  have lt := B.table.inum_lt i hi
  have same : ∀ y, y < sb.ninodes → SameFile sb s (s.flush sb i) y := fun y _ =>
    B.blocks.sameFile (B.table.node_flush hd hi v y) fun b lb _ => setInode_data lt lb
  exact ⟨⟨B.table.flush hd hi, B.blocks.same same fun b _ => bit_setInode lt⟩, same⟩

theorem wp_iupdate {Q : Unit → State → Prop} (L : Low sb h dirty s)
    (hd : dirty = none ∨ dirty = some i) (hi : 0 < h i) (v : (s.itable i).valid = true)
    (post : Quiet sb h h s (s.flush sb i) → Q () (s.flush sb i)) :
    wp (iupdate sb i) E Q s := by
  obtain ⟨base, same⟩ := L.base.flush hd hi v
  refine post ⟨⟨base.table, L.volume.same same fun b _ =>
    bit_setInode (L.table.inum_lt i hi)⟩, ?_, graph_same L.volume same⟩
  exact ⟨rfl, rfl, rfl, fun _ _ => rfl, fun _ _ v => v, fun _ _ _ => by
    rw [L.table.node_flush hd hi v]⟩

end Copy

section Allocation

theorem Table.disk (T : Table sb h dirty s) (itable : s'.itable = s.itable)
    (inodes : ∀ x, x < sb.ninodes → sb.inode s'.disk x = sb.inode s.disk x) :
    Table sb h dirty s' := by
  have din : ∀ j, s'.din j = s.din j := fun j => by rw [State.din, State.din, itable]
  refine ⟨fun j => ?_, fun j => ?_, fun j => ?_, fun j k => ?_, fun j => ?_, fun j hj v d => ?_⟩
  all_goals rw [itable]
  · exact T.ref_eq j
  · exact T.dev_eq j
  · exact T.inum_lt j
  · exact T.unique j k
  · rw [din]; exact T.typed j
  · rw [itable] at v
    rw [din, inodes _ (T.inum_lt j hj)]
    exact T.clean j hj v d

theorem node_disk (itable : s'.itable = s.itable)
    (inode : sb.inode s'.disk x = sb.inode s.disk x) : node sb s' x = node sb s x := by
  have cached : ∀ i, decide (s'.Cached i x) = decide (s.Cached i x) := fun i => by
    rw [decide_eq_decide, State.Cached, State.Cached, itable]
  simp only [node, cached, State.din, itable, inode]

def State.alloc (sb : Superblock) (s : State) (b : Nat) : State :=
  s.setDisk (setBlock (sb.markUsed s.disk b) b fun _ => 0)

theorem wp_balloc (meta_used : ∀ b, b < sb.nmeta → sb.bit s.disk b = true)
    (full : (∀ b, b < sb.size → sb.bit s.disk b = true) → Q 0 s)
    (post : ∀ b, sb.nmeta ≤ b → b < sb.size → sb.bit s.disk b = false →
      Q (UInt32.ofNat b) (s.alloc sb b)) : wp (balloc sb) E Q s := by
  unfold balloc
  simp only [wp_bind, wp_get]
  split
  · rename_i b found
    have free : sb.bit s.disk b = false := by simpa using List.find?_some found
    have lt : b < sb.size := List.mem_range.mp (List.mem_of_find?_eq_some found)
    refine post b ?_ lt free
    by_contra nb
    rw [meta_used b (by omega)] at free
    cases free
  · rename_i none
    exact full fun b ub => by simpa using List.find?_eq_none.mp none b (List.mem_range.mpr ub)

section

variable (lb : sb.nmeta ≤ b) (ub : b < sb.size)

include ub in
theorem alloc_data (lc : sb.nmeta ≤ c) (cb : c ≠ b) : (s.alloc sb b).disk c = s.disk c :=
  (setBlock_ne cb).trans (markUsed_data ub lc)

include lb in
theorem alloc_inode (hx : x < sb.ninodes) :
    sb.inode (s.alloc sb b).disk x = sb.inode s.disk x :=
  (inode_setBlock hx
    (Nat.le_trans (Nat.le_of_lt bmapstart_lt_nmeta) lb)).trans
    (inode_markUsed hx)

include lb ub in
theorem alloc_bit : sb.bit (s.alloc sb b).disk b = true :=
  (bit_setBlock ub lb).trans bit_markUsed

include lb in
theorem alloc_bit_ne (uc : c < sb.size) (cb : c ≠ b) :
    sb.bit (s.alloc sb b).disk c = sb.bit s.disk c :=
  (bit_setBlock uc lb).trans (bit_markUsed_ne cb)

end

theorem Blocks.slot_ne (B : Blocks sb s) (free : sb.bit s.disk b = false)
    (hp : slots sb s p ≠ 0) : slots sb s p ≠ b := fun e => by
  have := B.owned.inUse p hp
  rw [e, free] at this
  cases this

theorem Blocks.grow (B : Blocks sb s) (a : Alive sb s x)
    (others : ∀ y, y < sb.ninodes → y ≠ x → SameFile sb s s' y)
    (node_eq : node sb s' x = { node sb s x with addrs := (node sb s' x).addrs })
    (lb : sb.nmeta ≤ b) (ub : b < sb.size) (free : sb.bit s.disk b = false)
    (empty : slots sb s (x, k) = 0) (slot : slots sb s' (x, k) = b)
    (rest : ∀ l, l ≠ k → slots sb s' (x, l) = slots sb s (x, l))
    (bit : sb.bit s'.disk b = true)
    (bits : ∀ c, c < sb.size → c ≠ b → sb.bit s'.disk c = sb.bit s.disk c) : Blocks sb s' := by
  have a' : Alive sb s' x := ⟨a.1, by rw [node_eq]; exact a.2⟩
  refine B.update others ?_ ?_ (fun bn _ hbn => ?_)
  · refine B.owned.take (i := (x, k)) empty lb ub free slot (fun p hp => ?_) bit
      fun c _ uc cb => bits c uc cb
    by_cases px : p.1 = x
    · obtain ⟨y, l⟩ := p
      subst px
      exact rest l fun e => hp (by rw [e])
    · exact slots_of_others others px
  · intro c hc
    rw [bits c (by omega) (by omega)]
    exact B.meta_used c hc
  · rw [node_eq] at hbn
    obtain ⟨lt, ne⟩ := B.slot_filled a hbn
    rw [← slots_of_alive a', rest (dataSlot bn) fun e => ne (by rw [e, empty])]
    exact ⟨lt, ne⟩

end Allocation

/-- From `s` to `s'` the file of entry `i` may gain blocks, and its contents may change; its copy may
be ahead of the disk. -/
structure Grow (sb : Superblock) (i : Slot) (s s' : State) : Prop where
  files : s'.ftable = s.ftable ∧ s'.cwd = s.cwd ∧ s'.cur = s.cur
  entries : ∀ j, j ≠ i → s'.itable j = s.itable j
  inum : (s'.itable i).inum = (s.itable i).inum
  valid : (s'.itable i).valid = (s.itable i).valid
  node : node sb s' (s.itable i).inum =
    { node sb s (s.itable i).inum with addrs := (node sb s' (s.itable i).inum).addrs }
  others : ∀ y, y < sb.ninodes → y ≠ (s.itable i).inum → SameFile sb s s' y
  slots : ∀ k, slots sb s ((s.itable i).inum, k) ≠ 0 →
    slots sb s' ((s.itable i).inum, k) = slots sb s ((s.itable i).inum, k)

/-- The contents of the blocks that the file of entry `i` has in `s` stay. -/
def SameData (sb : Superblock) (i : Slot) (s s' : State) : Prop :=
  ∀ bn, slots sb s ((s.itable i).inum, dataSlot bn) ≠ 0 →
    s'.disk (slots sb s ((s.itable i).inum, dataSlot bn)) =
      s.disk (slots sb s ((s.itable i).inum, dataSlot bn))

namespace Grow

theorem refl : Grow sb i s s :=
  ⟨⟨rfl, rfl, rfl⟩, fun _ _ => rfl, rfl, rfl, rfl, fun _ _ _ => ⟨rfl, fun _ _ _ => rfl⟩, fun _ _ => rfl⟩

theorem trans (g : Grow sb i s s') (g' : Grow sb i s' s'') : Grow sb i s s'' := by
  have others := g'.others
  have slots := g'.slots
  have node := g'.node
  rw [g.inum] at others slots node
  refine ⟨⟨g'.files.1.trans g.files.1, g'.files.2.1.trans g.files.2.1,
    g'.files.2.2.trans g.files.2.2⟩, fun j ji => (g'.entries j ji).trans (g.entries j ji),
    g'.inum.trans g.inum, g'.valid.trans g.valid, ?_,
    fun y lt ne => (g.others y lt ne).trans (others y lt ne), fun k hk => ?_⟩
  · rw [node, g.node]
  · have e := g.slots k hk
    rw [slots k (by rwa [e]), e]

theorem frame (g : Grow sb i s s') (T : Table sb h dirty s) : Frame sb h s s' where
  ftable := g.files.1
  cwd := g.files.2.1
  cur := g.files.2.2
  inum j hj := by
    by_cases ji : j = i
    · rw [ji, g.inum]
    · rw [g.entries j ji]
  valid j hj v := by
    by_cases ji : j = i
    · rwa [ji, g.valid, ← ji]
    · rwa [g.entries j ji]
  type j hj a := by
    by_cases e : (s.itable j).inum = (s.itable i).inum
    · rw [e, g.node]
    · rw [(g.others _ (T.inum_lt j hj) e).node]

theorem alive (g : Grow sb i s s') (a : Alive sb s (s.itable i).inum) :
    Alive sb s' (s.itable i).inum := ⟨a.1, by rw [g.node]; exact a.2⟩

end Grow

@[simp] theorem setAddr_same {k : Fin (ndirect + 1)} :
    (din.setAddr k a).addrs k = a := update_self ..

theorem setAddr_ne {k l : Fin (ndirect + 1)} (ne : l ≠ k) :
    (din.setAddr k a).addrs l = din.addrs l := update_of_ne ne ..

theorem addrAt_setAddr_ne (k : Fin (ndirect + 1)) {d d' : Disk} {l : Nat} (ne : l ≠ k)
    (empty : din.addrs k = 0) (zero : d' a.toNat = fun _ => 0)
    (same : din.addrs (Fin.last ndirect) ≠ 0 →
      d' (din.addrs (Fin.last ndirect)).toNat = d (din.addrs (Fin.last ndirect)).toNat) :
    addrAt d' (din.setAddr k a) l = addrAt d din l := by
  unfold addrAt
  split
  · rw [setAddr_ne fun e => ne (by rw [← e])]
  · by_cases last : Fin.last ndirect = k
    · subst last
      have none : ¬((0 : UInt32) ≠ 0 ∧ l < nslots) := fun c => c.1 rfl
      rw [setAddr_same, zero, empty, if_neg none]
      split
      · simp [Bytes.get32, Bytes.readLe, Bytes.byteAt]
      · rfl
    · rw [setAddr_ne last]
      split
      · rw [same (by tauto)]
      · rfl

theorem toNat_ofNat_block (ub : b < sb.size) : (UInt32.ofNat b).toNat = b := by
  have := sb.size_lt
  rw [UInt32.toNat_ofNat', Nat.mod_eq_of_lt (by omega)]

theorem ofNat_block_ne_zero (lb : sb.nmeta ≤ b) (ub : b < sb.size) : UInt32.ofNat b ≠ 0 := by
  intro e
  have := congrArg UInt32.toNat e
  rw [toNat_ofNat_block ub] at this
  have pos : 0 < sb.nmeta := nmeta_pos
  exact absurd this (by simp only [UInt32.toNat_zero]; omega)

theorem Blocks.sameFile_alloc (B : Blocks sb s) (lb : sb.nmeta ≤ b) (ub : b < sb.size)
    (free : sb.bit s.disk b = false) (lt : y < sb.ninodes) : SameFile sb s (s.alloc sb b) y :=
  ⟨node_disk rfl (alloc_inode lb lt), fun _ _ hk =>
    alloc_data ub (B.owned.bounds _ hk).1 (B.slot_ne free hk)⟩

/-- Block `b` becomes the one at address `k` of the inode of entry `i`. -/
theorem Base.takeAddr (B : Base sb h dirty s) (hd : dirty = none ∨ dirty = some i) (hi : 0 < h i)
    (v : (s.itable i).valid = true) (lb : sb.nmeta ≤ b) (ub : b < sb.size)
    (free : sb.bit s.disk b = false) {k : Fin (ndirect + 1)} (empty : (s.din i).addrs k = 0)
    (t : State) (ht : t = (s.alloc sb b).setDin i ((s.din i).setAddr k (UInt32.ofNat b))) :
    Base sb h (some i) t ∧ Grow sb i s t ∧ SameData sb i s t ∧
      slots sb t ((s.itable i).inum, k) = b ∧
      ∀ l : Nat, l ≠ k → slots sb t ((s.itable i).inum, l) = slots sb s ((s.itable i).inum, l) := by
  subst ht
  set x := (s.itable i).inum with hx
  set t := (s.alloc sb b).setDin i ((s.din i).setAddr k (UInt32.ofNat b)) with ht
  have T := B.table
  have V := B.blocks
  have a : Alive sb s x := T.alive hi v
  have T1 : Table sb h dirty (s.alloc sb b) := T.disk rfl fun x lt => alloc_inode lb lt
  have typed : ((s.din i).setAddr k (UInt32.ofNat b)).type ≠ 0 := T.typed i hi v
  have T2 : Table sb h (some i) t := T1.setDin hd hi typed
  have node_x : node sb t x = (node sb s x).setAddr k (UInt32.ofNat b) := by
    rw [T.node_valid hi v]
    exact T1.node_setDin hd hi v typed
  have a2 : Alive sb t x := ⟨a.1, by rw [node_x]; exact a.2⟩
  have others : ∀ y, y < sb.ninodes → y ≠ x → SameFile sb s t y := fun y lt ne => by
    have S := V.sameFile_alloc lb ub free lt
    exact ⟨(T1.node_setDin_ne hd hi typed ne).trans S.node, S.blocks⟩
  have S := V.sameFile_alloc lb ub free a.1
  have slot : slots sb t (x, k) = b := by
    rw [slots_of_alive a2, node_x, addrAt_direct, setAddr_same, toNat_ofNat_block ub]
  have old : (node sb s x).addrs k = 0 := by rwa [T.node_valid hi v]
  have rest : ∀ l : Nat, l ≠ k → slots sb t (x, l) = slots sb s (x, l) := fun l ne => by
    rw [slots_of_alive a2, slots_of_alive a, node_x]
    refine addrAt_setAddr_ne k ne old ?_ fun ind => ?_
    · rw [toNat_ofNat_block ub]
      exact setBlock_same
    · rw [← slots_ind a]
      exact S.blocks a ndirect (slots_ind_ne a ind)
  have was : slots sb s (x, k) = 0 := by
    rw [slots_of_alive a, addrAt_direct, old]
    rfl
  have data : SameData sb i s t := fun bn hbn => S.blocks a _ hbn
  have blocks : Blocks sb t := V.grow a others (by rw [node_x]; rfl) lb ub free was slot rest
    (alloc_bit lb ub) fun c uc cb => alloc_bit_ne lb uc cb
  refine ⟨⟨T2, blocks⟩, ⟨⟨rfl, rfl, rfl⟩, fun j ji => State.setDin_ne ji, ?_, ?_, ?_, others, ?_⟩,
    data, slot, rest⟩
  · rw [ht, State.setDin_same]; rfl
  · rw [ht, State.setDin_same]; rfl
  · rw [node_x]; rfl
  · exact fun l hl => rest l fun e => hl (e ▸ was)

theorem dataSlot_ne_ind : dataSlot bn ≠ ndirect := by
  unfold dataSlot
  split <;> omega

theorem Table.toDirty (T : Table sb h dirty s) (hd : dirty = none ∨ dirty = some i) :
    Table sb h (some i) s := by
  rcases hd with rfl | rfl
  · exact T.weaken
  · exact T

/-- Block `b` becomes the one at entry `j` of the indirect block of the inode of entry `i`. -/
theorem Base.takeIndirect (B : Base sb h dirty s) (hd : dirty = none ∨ dirty = some i)
    (hi : 0 < h i)
    (v : (s.itable i).valid = true) (lb : sb.nmeta ≤ b) (ub : b < sb.size)
    (free : sb.bit s.disk b = false) {j : Nat} (hj : j < nindirect)
    (ind : (s.din i).addrs (Fin.last ndirect) ≠ 0)
    (was : slots sb s ((s.itable i).inum, ndirect + 1 + j) = 0)
    (t : State) (ht : t = (s.alloc sb b).setDisk (setBlock (s.alloc sb b).disk
      ((s.din i).addrs (Fin.last ndirect)).toNat
      (Bytes.set32 ((s.alloc sb b).disk ((s.din i).addrs (Fin.last ndirect)).toNat) (4 * j)
        (UInt32.ofNat b)))) :
    Base sb h (some i) t ∧ Grow sb i s t ∧ SameData sb i s t ∧
      slots sb t ((s.itable i).inum, ndirect + 1 + j) = b ∧
      ∀ l, l ≠ ndirect + 1 + j →
        slots sb t ((s.itable i).inum, l) = slots sb s ((s.itable i).inum, l) := by
  have T := B.table
  have V := B.blocks
  set x := (s.itable i).inum with hx
  have a : Alive sb s x := T.alive hi v
  rw [← T.node_valid hi v] at ind ht
  set c := ((node sb s x).addrs (Fin.last ndirect)).toNat with hc
  have slot_c : slots sb s (x, ndirect) = c := slots_ind a
  have c_ne : slots sb s (x, ndirect) ≠ 0 := slots_ind_ne a ind
  have lc : sb.nmeta ≤ c := slot_c ▸ (V.owned.bounds _ c_ne).1
  have cb : c ≠ b := slot_c ▸ V.slot_ne free c_ne
  have alloc_c : (s.alloc sb b).disk c = s.disk c := alloc_data ub lc cb
  have disk_c : t.disk c = Bytes.set32 (s.disk c) (4 * j) (UInt32.ofNat b) := by
    rw [ht, ← alloc_c]
    exact setBlock_same
  have disk_ne : ∀ d, sb.nmeta ≤ d → d ≠ b → d ≠ c → t.disk d = s.disk d := fun d ld db dc => by
    have e : t.disk d = (s.alloc sb b).disk d := by
      rw [ht]
      exact setBlock_ne dc
    rw [e, alloc_data ub ld db]
  have inode_t : ∀ y, y < sb.ninodes → sb.inode t.disk y = sb.inode s.disk y := fun y lt => by
    rw [ht]
    exact (inode_setBlock lt
      (Nat.le_trans (Nat.le_of_lt bmapstart_lt_nmeta) lc)).trans (alloc_inode lb lt)
  have bit_t : ∀ d, d < sb.size → sb.bit t.disk d = sb.bit (s.alloc sb b).disk d := fun d ud => by
    rw [ht]
    exact bit_setBlock ud lc
  have itable_t : t.itable = s.itable := by rw [ht]; rfl
  have node_t : ∀ y, y < sb.ninodes → node sb t y = node sb s y := fun y lt =>
    node_disk itable_t (inode_t y lt)
  have a2 : Alive sb t x := ⟨a.1, by rw [node_t x a.1]; exact a.2⟩
  -- the blocks of the other slots are neither the new one nor the indirect block
  have blocks : ∀ p, p ≠ (x, ndirect) → slots sb s p ≠ 0 →
      t.disk (slots sb s p) = s.disk (slots sb s p) := fun p hp hs =>
    disk_ne _ (V.owned.bounds _ hs).1 (V.slot_ne free hs) fun e =>
      hp (V.owned.inj _ _ hs (e.trans slot_c.symm))
  have others : ∀ y, y < sb.ninodes → y ≠ x → SameFile sb s t y := fun y lt ne =>
    ⟨node_t y lt, fun _ k hk => blocks _ (fun e => ne (congrArg Prod.fst e)) hk⟩
  have slot : slots sb t (x, ndirect + 1 + j) = b := by
    rw [slots_of_alive a2, node_t x a.1,
      addrAt_indirect (by omega) (by simp only [nslots] at *; omega) ind, ← hc, disk_c,
      Nat.add_sub_cancel_left, Bytes.get32_set32_same (by simp only [nindirect, bsize] at *; omega),
      toNat_ofNat_block ub]
  have rest : ∀ l, l ≠ ndirect + 1 + j → slots sb t (x, l) = slots sb s (x, l) := fun l ne => by
    rw [slots_of_alive a2, slots_of_alive a, node_t x a.1]
    unfold addrAt
    split
    · rfl
    · split
      · rw [← hc, disk_c, Bytes.get32_set32_disjoint (by omega)]
      · rfl
  have data : SameData sb i s t := fun bn hbn =>
    blocks _ (fun e => dataSlot_ne_ind (congrArg Prod.snd e)) hbn
  have bit_b : sb.bit t.disk b = true := (bit_t b ub).trans (alloc_bit lb ub)
  have grown : Blocks sb t := V.grow a others (by rw [node_t x a.1]) lb ub free was slot rest
    bit_b fun d ud db => (bit_t d ud).trans (alloc_bit_ne lb ud db)
  refine ⟨⟨(T.disk itable_t inode_t).toDirty hd, grown⟩, ⟨?_, ?_, ?_, ?_, ?_, others, ?_⟩, data,
    slot, rest⟩
  · rw [ht]; exact ⟨rfl, rfl, rfl⟩
  · intro j _; rw [itable_t]
  · rw [itable_t]
  · rw [itable_t]
  · rw [← hx, node_t x a.1]
  · exact fun l hl => rest l fun e => hl (e ▸ was)

/-- The block at slot `k` of the file of entry `i` is asked for: it is `a`, or there is no block for
it, and `a` is 0.  Only the slots in `K` change. -/
structure Mapped (sb : Superblock) (i : Slot) (K : Nat → Prop) (k : Nat) (a : UInt32)
    (s s' : State) : Prop where
  grow : Grow sb i s s'
  data : SameData sb i s s'
  slot : a ≠ 0 → slots sb s' ((s.itable i).inum, k) = a.toNat
  full : a = 0 → slots sb s' ((s.itable i).inum, k) = 0 ∧
    ∀ b, b < sb.size → sb.bit s'.disk b = true
  rest : ∀ l, ¬K l → slots sb s' ((s.itable i).inum, l) = slots sb s ((s.itable i).inum, l)

theorem Base.wp_addrOf (B : Base sb h dirty s) (hd : dirty = none ∨ dirty = some i) (hi : 0 < h i)
    (v : (s.itable i).valid = true) {k : Fin (ndirect + 1)}
    (post : ∀ a s', Base sb h (some i) s' → Mapped sb i (· = k) k a s s' → Q a s') :
    wp (addrOf sb i k) E Q s := by
  have base : Base sb h (some i) s := ⟨B.table.toDirty hd, B.blocks⟩
  have same : SameData sb i s s := fun _ _ => rfl
  have at_k : slots sb s ((s.itable i).inum, k) = ((s.din i).addrs k).toNat := by
    rw [slots_of_alive (B.table.alive hi v), addrAt_direct, B.table.node_valid hi v]
  unfold addrOf
  simp only [wp_bind, wp_get]
  refine wp_ite (fun empty => ?_) fun full => ?_
  · rw [wp_bind]
    refine wp_balloc B.blocks.meta_used (fun used => ?_) fun b lb ub free => ?_
    · exact post 0 s base ⟨.refl, same, (by intros; contradiction),
        fun _ => ⟨by rw [at_k, empty]; rfl, used⟩,
        fun _ _ => rfl⟩
    · have ne := ofNat_block_ne_zero lb ub
      rw [if_neg ne]
      simp only [wp_bind, wp_modify, wp_pure]
      obtain ⟨base, grow, data, slot, rest⟩ := B.takeAddr hd hi v lb ub free empty _ rfl
      refine post _ _ base ⟨grow, data, fun _ => ?_, fun zero => absurd zero ne, rest⟩
      rwa [toNat_ofNat_block ub]
  · exact post _ s base ⟨.refl, same, fun _ => at_k, fun zero => absurd zero full, fun _ _ => rfl⟩

theorem SameData.trans (g : Grow sb i s s') (e : SameData sb i s s') (e' : SameData sb i s' s'') :
    SameData sb i s s'' := fun bn hbn => by
  have slot := g.slots _ hbn
  have e'' := e' bn
  rw [g.inum, slot] at e''
  rw [e'' hbn, e bn hbn]

theorem slots_indirect (a : Alive sb s x) {j : Nat}
    (ind : (node sb s x).addrs (Fin.last ndirect) ≠ 0) (hj : j < nindirect) :
    slots sb s (x, ndirect + 1 + j) = (Bytes.get32
      (s.disk ((node sb s x).addrs (Fin.last ndirect)).toNat) (4 * j)).toNat := by
  rw [slots_of_alive a, addrAt_indirect (by omega) (by simp only [nslots] at *; omega) ind,
    Nat.add_sub_cancel_left]

theorem dataSlot_direct (lt : bn < ndirect) : dataSlot bn = bn := if_pos lt

theorem dataSlot_indirect (ge : ¬bn < ndirect) : dataSlot bn = ndirect + 1 + (bn - ndirect) := by
  rw [dataSlot, if_neg ge]
  omega

/-- The slots that `bmap` may fill for block `bn`. -/
def mapSlots (bn k : Nat) : Prop := k = dataSlot bn ∨ k = ndirect ∧ ndirect ≤ bn

theorem slots_no_indirect (a : Alive sb s x) (none : slots sb s (x, ndirect) = 0) (j : Nat) :
    slots sb s (x, ndirect + 1 + j) = 0 := by
  rw [slots_ind a] at none
  have zero : (node sb s x).addrs (Fin.last ndirect) = 0 := by
    rwa [← UInt32.toNat_inj]
  rw [slots_of_alive a, addrAt, dif_neg (by omega), if_neg fun c => c.1 zero]

/-- `bmap` returns the block of the file at `bn`, which it may have allocated, or 0. -/
theorem Base.wp_bmap (B : Base sb h dirty s) (hd : dirty = none ∨ dirty = some i) (hi : 0 < h i)
    (v : (s.itable i).valid = true) (hbn : bn < maxFile)
    (post : ∀ a s', Base sb h (some i) s' → Mapped sb i (mapSlots bn) (dataSlot bn) a s s' →
      Q a s') : wp (bmap sb i bn) E Q s := by
  unfold bmap
  split
  · rename_i direct
    refine B.wp_addrOf hd hi v fun a s' base M => post a s' base ?_
    rw [dataSlot_direct direct]
    exact ⟨M.grow, M.data, M.slot, M.full, fun l out => M.rest l fun e =>
      out (.inl (e.trans (dataSlot_direct direct).symm))⟩
  · rename_i indirect
    rw [if_pos (by simp only [maxFile] at hbn; omega), wp_bind]
    refine B.wp_addrOf hd hi v fun ind s' base M => ?_
    have v' : (s'.itable i).valid = true := M.grow.valid.trans v
    have a' := base.table.alive hi v'
    have rest : ∀ l, ¬mapSlots bn l →
        slots sb s' ((s.itable i).inum, l) = slots sb s ((s.itable i).inum, l) := fun l out =>
      M.rest l fun e => out (.inr ⟨e, by omega⟩)
    refine wp_ite (fun none => ?_) fun some => ?_
    · have empty := (M.full none).1
      refine post 0 s' base ⟨M.grow, M.data, nofun, fun _ => ⟨?_, (M.full none).2⟩, rest⟩
      rw [dataSlot_indirect indirect, ← M.grow.inum]
      exact slots_no_indirect a' (by rwa [M.grow.inum]) _
    · have hj : bn - ndirect < nindirect := by simp only [maxFile] at hbn; omega
      have node' := base.table.node_valid hi v'
      have ind_eq : ind = (s'.din i).addrs (Fin.last ndirect) := by
        rw [← UInt32.toNat_inj, ← M.slot some, ← node', ← slots_ind a', M.grow.inum]
        rfl
      have entry := slots_indirect a' (by rwa [node', ← ind_eq]) hj
      rw [node', ← ind_eq, M.grow.inum, ← dataSlot_indirect indirect] at entry
      simp only [wp_bind, wp_get]
      refine wp_ite (fun empty => ?_) fun full => ?_
      · rw [empty] at entry
        rw [wp_bind]
        refine wp_balloc base.blocks.meta_used (fun used => ?_) fun b lb ub free => ?_
        · exact post 0 s' base ⟨M.grow, M.data, nofun, fun _ => ⟨entry, used⟩, rest⟩
        · have ne := ofNat_block_ne_zero lb ub
          rw [if_neg ne]
          simp only [wp_bind, wp_modify, wp_pure]
          rw [ind_eq]
          obtain ⟨base', grow', data', slot', rest'⟩ := base.takeIndirect (.inr rfl) hi v' lb ub
            free hj (by rwa [← ind_eq])
            (by rwa [M.grow.inum, ← dataSlot_indirect indirect]) _ rfl
          rw [M.grow.inum, ← dataSlot_indirect indirect] at slot' rest'
          refine post _ _ base' ⟨M.grow.trans grow', M.data.trans M.grow data', fun _ => ?_,
            fun zero => absurd zero ne, fun l out => ?_⟩
          · rwa [toNat_ofNat_block ub]
          · rw [rest' l fun e => out (.inl e), rest l out]
      · exact post _ s' base ⟨M.grow, M.data, fun _ => entry, fun zero => absurd zero full, rest⟩

theorem Base.low (B : Base sb h dirty s') (V : Volume sb s) (g : Grow sb i s s')
    (data : SameData sb i s s') (a : Alive sb s (s.itable i).inum) : Low sb h dirty s' := by
  refine ⟨B.table, V.ofBlocks B.blocks g.others fun k a' dir hk => ?_⟩
  rw [g.node] at dir hk
  have full := V.blocks.entry_filled a hk
  rw [← slots_of_alive a] at full
  have e : entryAt sb s' (s.itable i).inum k = entryAt sb s (s.itable i).inum k := by
    rw [entryAt, entryAt, ← slots_of_alive a, ← slots_of_alive a', g.slots _ full, data _ full]
  rw [e]
  exact V.ranged _ k a dir hk

theorem wp_bmap (L : Low sb h dirty s) (hd : dirty = none ∨ dirty = some i) (hi : 0 < h i)
    (v : (s.itable i).valid = true) (hbn : bn < maxFile)
    (post : ∀ a s', Low sb h (some i) s' → Grow sb i s s' → SameData sb i s s' →
      (a ≠ 0 → slots sb s' ((s.itable i).inum, dataSlot bn) = a.toNat) → Q a s') :
    wp (bmap sb i bn) E Q s :=
  L.base.wp_bmap hd hi v hbn fun a s' base M =>
    post a s' (base.low L.volume M.grow M.data (L.table.alive hi v)) M.grow M.data M.slot

theorem wp_bmap_filled (T : Table sb h dirty s) (hi : 0 < h i) (v : (s.itable i).valid = true)
    (hbn : bn < maxFile) (filled : slots sb s ((s.itable i).inum, dataSlot bn) ≠ 0)
    (post : ∀ a, a ≠ 0 → a.toNat = slots sb s ((s.itable i).inum, dataSlot bn) → Q a s) :
    wp (bmap sb i bn) E Q s := by
  have a := T.alive hi v
  have node := T.node_valid hi v
  unfold bmap
  split
  · rename_i direct
    rw [dataSlot_direct direct, slots_of_alive a, node,
      addrAt_direct (⟨bn, by omega⟩ : Fin (ndirect + 1))] at filled post
    have ne : (s.din i).addrs ⟨bn, by omega⟩ ≠ 0 := fun e => filled (by rw [e]; rfl)
    unfold addrOf
    simp only [wp_bind, wp_get]
    rw [if_neg ne]
    exact post _ ne rfl
  · rename_i indirect
    have hj : bn - ndirect < nindirect := by simp only [maxFile] at hbn; omega
    rw [dataSlot_indirect indirect] at filled post
    have ind : (Fs.node sb s (s.itable i).inum).addrs (Fin.last ndirect) ≠ 0 := fun e => filled (by
      rw [slots_of_alive a, addrAt, dif_neg (by omega), if_neg fun c => c.1 e])
    rw [slots_indirect a ind hj, node] at filled post
    rw [node] at ind
    have ne : Bytes.get32 (s.disk ((s.din i).addrs (Fin.last ndirect)).toNat)
        (4 * (bn - ndirect)) ≠ 0 := fun e => filled (by rw [e]; rfl)
    unfold addrOf
    simp only [wp_bind, wp_get, if_pos hj, if_neg ind, wp_pure, if_neg ne]
    exact post _ ne rfl

end Xv6.Fs
