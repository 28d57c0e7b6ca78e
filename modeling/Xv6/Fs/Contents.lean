import Xv6.Fs.Blocks

/-! Reading, writing and truncating the contents of files. -/

namespace Xv6.Fs

open Wp Function List UInt32

variable {sb : Superblock} {h : Slot → Nat} {dirty : Option Slot} {s s' s'' : State} {i j : Slot}
  {x y k b bn m : Nat} {din : Dinode} {E : Stop → Prop}

section Reading

variable {Q : Int × List UInt8 → State → Prop}

theorem wp_readiLoop (B : Base sb h none s) (hi : 0 < h i) (v : (s.itable i).valid = true)
    (copyout : Nat → Nat → Bool) (n : Nat) (post : ∀ r bytes, r ≤ (n : Int) → Q (r, bytes) s)
    (fuel tot off : Nat) (bytes : List UInt8) (le : tot ≤ n)
    (below : off + (n - tot) ≤ (s.din i).size.toNat) :
    wp (readiLoop sb i copyout fuel tot off n bytes) E Q s := by
  have a := B.table.alive hi v
  induction fuel generalizing tot off bytes with
  | zero => exact post _ _ (by omega)
  | succ fuel ih =>
    unfold readiLoop
    split
    · rename_i lt
      rw [wp_bind]
      have inside : off / bsize * bsize < (node sb s (s.itable i).inum).size.toNat := by
        rw [B.table.node_valid hi v]
        have := Nat.div_mul_le_self off bsize
        omega
      obtain ⟨hbn, filled⟩ := B.blocks.slot_filled a inside
      refine wp_bmap_filled B.table hi v hbn filled fun addr ne _ => ?_
      rw [if_neg ne]
      simp only [wp_bind, wp_get]
      refine wp_ite (fun _ => ih _ _ _ (by omega) (by omega)) fun _ => ?_
      exact post _ _ (by omega)
    · exact post _ _ (by omega)

theorem toNat_ofNat_offset (le : m ≤ maxFile * bsize) : (UInt32.ofNat m).toNat = m := by
  rw [toNat_ofNat', Nat.mod_eq_of_lt]
  simp only [maxFile, ndirect, nindirect, bsize] at le
  omega

theorem readiLoop_done {fuel tot off n : Nat} (done : n ≤ tot) (post : Q (tot, bytes) s) :
    wp (readiLoop sb i copyout fuel tot off n bytes) E Q s := by
  cases fuel with
  | zero => exact post
  | succ fuel =>
    rwa [readiLoop, if_neg (by omega)]

theorem Table.wp_readDirent (T : Table sb h none s) (hi : 0 < h i) (v : (s.itable i).valid = true)
    (inside : 16 * (k + 1) ≤ (s.din i).size.toNat) (hbn : k / 64 < maxFile)
    (filled : slots sb s ((s.itable i).inum, dataSlot (k / 64)) ≠ 0)
    (post : Q (16, entryAt sb s (s.itable i).inum k) s) : wp (readDirent sb i k) E Q s := by
  have a := T.alive hi v
  have small : 16 * (k + 1) ≤ maxFile * bsize := by
    simp only [maxFile, ndirect, nindirect, bsize] at *
    omega
  have off : (UInt32.ofNat (16 * k)).toNat = 16 * k := toNat_ofNat_offset (by omega)
  have add : (UInt32.ofNat (16 * k) + 16).toNat = 16 * k + 16 := by
    rw [UInt32.toNat_add, off]
    simp only [maxFile, ndirect, nindirect, bsize] at small
    exact Nat.mod_eq_of_lt (by simp only [UInt32.reduceToNat]; omega)
  have aligned : 16 * k % bsize = 16 * (k % 64) := by simp only [bsize]; omega
  have blk : 16 * k / bsize = k / 64 := by simp only [bsize]; omega
  unfold readDirent readi
  simp only [wp_bind, wp_get]
  rw [if_neg (by simp only [gt_iff_lt, lt_iff_toNat_lt, off, add]; omega), off,
    if_neg (by simp only [gt_iff_lt, lt_iff_toNat_lt, add]; omega),
    show (16 : UInt32).toNat = 15 + 1 from rfl, readiLoop, if_pos (by omega), wp_bind, blk]
  refine wp_bmap_filled T hi v hbn filled fun addr ne eq => ?_
  rw [if_neg ne]
  simp only [wp_bind, wp_get, if_true]
  rw [aligned, show min (15 + 1 - 0) (bsize - 16 * (k % 64)) = 16 by simp only [bsize]; omega]
  refine readiLoop_done (by omega) ?_
  rwa [nil_append, eq, slots_of_alive a]

/-- The kernel reads a directory entry whole, or the directory ends within it. -/
theorem wp_readDirent (B : Base sb h none s) (hi : 0 < h i) (v : (s.itable i).valid = true)
    (lt : 16 * k < (s.din i).size.toNat)
    (whole : 16 * (k + 1) ≤ (s.din i).size.toNat → Q (16, entryAt sb s (s.itable i).inum k) s)
    (short : ¬16 * (k + 1) ≤ (s.din i).size.toNat → ∀ r de, r ≠ 16 → Q (r, de) s) :
    wp (readDirent sb i k) E Q s := by
  have a := B.table.alive hi v
  have node := B.table.node_valid hi v
  have le := B.blocks.size_le a
  rw [node] at le
  by_cases hk : 16 * (k + 1) ≤ (s.din i).size.toNat
  · have inside : k / 64 * bsize < (Fs.node sb s (s.itable i).inum).size.toNat := by
      rw [node]
      simp only [bsize]
      omega
    obtain ⟨hbn, filled⟩ := B.blocks.slot_filled a inside
    exact B.table.wp_readDirent hi v hk hbn filled (whole hk)
  · have off := toNat_ofNat_offset (le_of_lt (lt_of_lt_of_le lt le))
    have add : (UInt32.ofNat (16 * k) + 16).toNat = 16 * k + 16 := by
      rw [UInt32.toNat_add, off]
      simp only [maxFile, ndirect, nindirect, bsize] at le
      exact Nat.mod_eq_of_lt (by simp only [UInt32.reduceToNat]; omega)
    have rest : ((s.din i).size - UInt32.ofNat (16 * k)).toNat = (s.din i).size.toNat - 16 * k := by
      rw [UInt32.toNat_sub_of_le _ _ (UInt32.le_iff_toNat_le.mpr (by omega)), off]
    unfold readDirent readi
    simp only [wp_bind, wp_get]
    rw [if_neg (by simp only [gt_iff_lt, UInt32.lt_iff_toNat_lt, off, add]; omega), off,
      if_pos (by simp only [gt_iff_lt, lt_iff_toNat_lt, add]; omega)]
    refine wp_readiLoop B hi v _ _ (fun r de hr => short hk r de ?_) _ _ _ _ (by omega) ?_
    · rw [rest] at hr
      omega
    · rw [rest]
      omega

end Reading

section Writing

variable {c : Nat}

/-- The block in a data slot of the file of entry `i` is overwritten. -/
theorem Base.writeData (B : Base sb h (some i) s) (hi : 0 < h i) (v : (s.itable i).valid = true)
    (slot : slots sb s ((s.itable i).inum, dataSlot bn) = c) (ne : c ≠ 0) (data : Block) (t : State)
    (ht : t = s.setDisk (setBlock s.disk c data)) :
    Base sb h (some i) t ∧ Grow sb i s t ∧
      ∀ k, slots sb t ((s.itable i).inum, k) = slots sb s ((s.itable i).inum, k) := by
  have T := B.table
  have V := B.blocks
  set x := (s.itable i).inum with hx
  have a : Alive sb s x := T.alive hi v
  have ne' : slots sb s (x, dataSlot bn) ≠ 0 := by rwa [slot]
  have lc : sb.nmeta ≤ c := slot ▸ (V.owned.bounds _ ne').1
  have inode_t : ∀ y, y < sb.ninodes → sb.inode t.disk y = sb.inode s.disk y := fun y lt => by
    rw [ht]
    exact Superblock.inode_setBlock lt
      (le_trans (le_of_lt Superblock.bmapstart_lt_nmeta) lc)
  have itable_t : t.itable = s.itable := by rw [ht]; rfl
  have node_t : ∀ y, y < sb.ninodes → node sb t y = node sb s y := fun y lt =>
    node_disk itable_t (inode_t y lt)
  have a2 : Alive sb t x := ⟨a.1, by rw [node_t x a.1]; exact a.2⟩
  have bits : ∀ d, d < sb.size → sb.bit t.disk d = sb.bit s.disk d := fun d ud => by
    rw [ht]
    exact Superblock.bit_setBlock ud lc
  have blocks : ∀ p, p ≠ (x, dataSlot bn) → slots sb s p ≠ 0 →
      t.disk (slots sb s p) = s.disk (slots sb s p) := fun p hp hs => by
    rw [ht]
    exact setBlock_ne fun e => hp (V.owned.inj _ _ hs (e.trans slot.symm))
  have others : ∀ y, y < sb.ninodes → y ≠ x → SameFile sb s t y := fun y lt ne =>
    ⟨node_t y lt, fun _ k hk => blocks _ (fun e => ne (congrArg Prod.fst e)) hk⟩
  have slots_x : ∀ k, slots sb t (x, k) = slots sb s (x, k) := fun k => by
    rw [slots_of_alive a2, slots_of_alive a, node_t x a.1]
    refine addrAt_congr fun ind => ?_
    rw [← slots_ind a]
    exact blocks _ (fun e => dataSlot_ne_ind (congrArg Prod.snd e).symm) (slots_ind_ne a ind)
  have written : Blocks sb t := by
    refine V.update others (V.owned.congr (slots_update others slots_x) fun d _ ud => bits d ud) ?_
      fun l _ hl => ?_
    · intro d hd
      rw [bits d (lt_of_lt_of_le hd Superblock.nmeta_le)]
      exact V.meta_used d hd
    · rw [node_t x a.1] at hl
      rw [← slots_of_alive a2, slots_x]
      exact V.slot_filled a hl
  refine ⟨⟨T.disk itable_t inode_t, written⟩, ⟨?_, ?_, ?_, ?_, ?_, others, fun k _ => slots_x k⟩,
    slots_x⟩
  · rw [ht]; exact ⟨rfl, rfl, rfl⟩
  · intro j _; rw [itable_t]
  · rw [itable_t]
  · rw [itable_t]
  · rw [← hx, node_t x a.1]

theorem Low.writeData (L : Low sb h (some i) s) (hi : 0 < h i) (v : (s.itable i).valid = true)
    (slot : slots sb s ((s.itable i).inum, dataSlot bn) = c) (ne : c ≠ 0) (data : Block) (t : State)
    (ht : t = s.setDisk (setBlock s.disk c data))
    (ranged : (∀ k, slots sb t ((s.itable i).inum, k) = slots sb s ((s.itable i).inum, k)) →
      Alive sb t (s.itable i).inum → ∀ k, (s.din i).type = tDir →
      16 * (k + 1) ≤ (s.din i).size.toNat →
      deInum (entryAt sb t (s.itable i).inum k) < sb.ninodes) :
    Low sb h (some i) t ∧ Grow sb i s t ∧
      ∀ k, slots sb t ((s.itable i).inum, k) = slots sb s ((s.itable i).inum, k) := by
  obtain ⟨base, grow, same⟩ := L.base.writeData hi v slot ne data t ht
  refine ⟨⟨base.table, L.volume.ofBlocks base.blocks grow.others fun k a' dir hk => ?_⟩, grow, same⟩
  rw [grow.node, L.table.node_valid hi v] at dir hk
  exact ranged same a' k dir hk

theorem Base.setSize (B : Base sb h (some i) s) (hi : 0 < h i) (v : (s.itable i).valid = true)
    (size : UInt32) (le : size.toNat ≤ maxFile * bsize)
    (filled : ∀ bn, bn * bsize < size.toNat → slots sb s ((s.itable i).inum, dataSlot bn) ≠ 0)
    (t : State) (ht : t = s.setDin i { s.din i with size := size }) :
    Base sb h (some i) t ∧ node sb t (s.itable i).inum =
        { node sb s (s.itable i).inum with size := size } ∧
      (∀ y, y < sb.ninodes → y ≠ (s.itable i).inum → SameFile sb s t y) ∧
      ∀ k, entryAt sb t (s.itable i).inum k = entryAt sb s (s.itable i).inum k := by
  have T := B.table
  have V := B.blocks
  set x := (s.itable i).inum with hx
  have a : Alive sb s x := T.alive hi v
  have typed : ({ s.din i with size := size } : Dinode).type ≠ 0 := T.typed i hi v
  have disk : t.disk = s.disk := by rw [ht]; rfl
  have T2 : Table sb h (some i) t := by rw [ht]; exact T.setDin (.inr rfl) hi typed
  have node_x : node sb t x = { node sb s x with size := size } := by
    rw [ht, T.node_valid hi v]
    exact T.node_setDin (.inr rfl) hi v typed
  have a2 : Alive sb t x := ⟨a.1, by rw [node_x]; exact a.2⟩
  have others : ∀ y, y < sb.ninodes → y ≠ x → SameFile sb s t y := fun y lt ne =>
    sameFile_of_disk disk (by rw [ht]; exact T.node_setDin_ne (.inr rfl) hi typed ne)
  have addr : ∀ k, addrAt t.disk (node sb t x) k = addrAt s.disk (node sb s x) k := fun k => by
    rw [node_x, disk]
    rfl
  have entry : ∀ k, entryAt sb t x k = entryAt sb s x k := fun k => by
    rw [entryAt, entryAt, addr, disk]
  have slots_x : ∀ k, slots sb t (x, k) = slots sb s (x, k) := fun k => by
    rw [slots_of_alive a2, slots_of_alive a, addr]
  refine ⟨⟨T2, V.update others (V.owned.congr (slots_update others slots_x)
    fun d _ _ => by rw [disk]) ?_ fun bn _ hbn => ?_⟩, node_x, others, entry⟩
  · rw [disk]
    exact V.meta_used
  · rw [node_x] at hbn
    rw [addr, ← slots_of_alive a]
    refine ⟨?_, filled bn hbn⟩
    by_contra ge
    have := Nat.mul_le_mul_right bsize (not_lt.mp ge)
    exact absurd (lt_of_lt_of_le hbn le) (by omega)

theorem Low.setSize (L : Low sb h (some i) s) (hi : 0 < h i) (v : (s.itable i).valid = true)
    (size : UInt32) (le : size.toNat ≤ maxFile * bsize)
    (filled : ∀ bn, bn * bsize < size.toNat → slots sb s ((s.itable i).inum, dataSlot bn) ≠ 0)
    (ranged : ∀ k, (s.din i).type = tDir → 16 * (k + 1) ≤ size.toNat →
      deInum (entryAt sb s (s.itable i).inum k) < sb.ninodes)
    (t : State) (ht : t = s.setDin i { s.din i with size := size }) :
    Low sb h (some i) t ∧ node sb t (s.itable i).inum =
        { node sb s (s.itable i).inum with size := size } ∧
      (∀ y, y < sb.ninodes → y ≠ (s.itable i).inum → SameFile sb s t y) ∧
      ∀ k, entryAt sb t (s.itable i).inum k = entryAt sb s (s.itable i).inum k := by
  obtain ⟨base, node_x, others, entry⟩ := L.base.setSize hi v size le filled t ht
  refine ⟨⟨base.table, L.volume.ofBlocks base.blocks others fun k _ dir hk => ?_⟩, node_x, others,
    entry⟩
  rw [node_x] at dir hk
  rw [L.table.node_valid hi v] at dir
  rw [entry]
  exact ranged k dir hk

variable {src : Nat → Option UInt8}

theorem copyin_bytes {g : Nat → UInt8} (tot o : Nat) (data : Block)
    (all : ∀ k, tot ≤ k → k < tot + m → src k = some (g k)) :
    (copyin src m tot o data).2 = true ∧ (o + m ≤ bsize → ∀ j,
      Bytes.byteAt (copyin src m tot o data).1 j =
        if o ≤ j ∧ j < o + m then g (tot + (j - o)) else Bytes.byteAt data j) := by
  induction m generalizing tot o data with
  | zero =>
    refine ⟨rfl, fun _ j => ?_⟩
    rw [if_neg (by omega)]
    rfl
  | succ m ih =>
    rw [copyin, all tot le_rfl (by omega)]
    obtain ⟨copied, bytes⟩ := ih (tot + 1) (o + 1) (Bytes.setByte data o (g tot))
      fun k low high => all k (by omega) (by omega)
    refine ⟨copied, fun fits j => ?_⟩
    rw [bytes (by omega) j]
    by_cases here : j = o
    · subst here
      rw [if_neg (by omega), if_pos (by omega), Bytes.byteAt_setByte_same (by omega),
        Nat.sub_self, add_zero]
    · rw [Bytes.byteAt_setByte_ne here]
      by_cases inside : o + 1 ≤ j ∧ j < o + 1 + m
      · rw [if_pos inside, if_pos (by omega), show tot + 1 + (j - (o + 1)) = tot + (j - o) by omega]
      · rw [if_neg inside, if_neg (by omega)]

theorem copyin_kernel (bytes : List UInt8) (m tot o : Nat) (data : Block) :
    (copyin (kernelSrc bytes) m tot o data).2 = true ∧ (o + m ≤ bsize → ∀ j,
      Bytes.byteAt (copyin (kernelSrc bytes) m tot o data).1 j =
        if o ≤ j ∧ j < o + m then bytes.getD (tot + (j - o)) 0 else Bytes.byteAt data j) :=
  copyin_bytes (g := fun k => bytes.getD k 0) tot o data fun _ _ _ => rfl

theorem slice_congr {b b' : Block}
    (e : ∀ j, o ≤ j → j < o + m → Bytes.byteAt b j = Bytes.byteAt b' j) :
    slice b o m = slice b' o m := by
  refine map_congr_left fun k hk => ?_
  rw [mem_range] at hk
  exact e _ (by omega) (by omega)

theorem slice_copyin (de : List UInt8) (fits : o + de.length ≤ bsize) (data : Block) :
    slice (copyin (kernelSrc de) de.length 0 o data).1 o de.length = de := by
  refine ext_getElem (by simp [slice]) fun k hk hk' => ?_
  simp only [slice, getElem_map, getElem_range]
  rw [(copyin_kernel de de.length 0 o data).2 fits, if_pos (by omega), zero_add,
    Nat.add_sub_cancel_left]
  simp [hk']

variable {de : List UInt8}

theorem slice_copyin_ne {o o' : Nat} (fits : o + m ≤ bsize) (data : Block)
    (apart : o' + m ≤ o ∨ o + m ≤ o') :
    slice (copyin (kernelSrc de) m 0 o data).1 o' m = slice data o' m :=
  slice_congr fun j lj uj => by
    rw [(copyin_kernel de m 0 o data).2 fits, if_neg (by omega)]

theorem dataSlot_inj (e : dataSlot bn = dataSlot bn') : bn = bn' := by
  unfold dataSlot at e
  split at e <;> split at e <;> omega

theorem entryAt_write (V : Volume sb s) (a : Alive sb s x) (a' : Alive sb s' x)
    (same : ∀ k, slots sb s' (x, k) = slots sb s (x, k))
    (slot : slots sb s (x, dataSlot (k / 64)) = c) (len : de.length = 16)
    (disk : s'.disk = setBlock s.disk c
      (copyin (kernelSrc de) 16 0 (16 * (k % 64)) (s.disk c)).1)
    (filled : slots sb s (x, dataSlot (l / 64)) ≠ 0) :
    entryAt sb s' x l = if l = k then de else entryAt sb s x l := by
  unfold entryAt
  rw [← slots_of_alive a, ← slots_of_alive a', same, disk]
  by_cases blk : l / 64 = k / 64
  · rw [blk, slot, setBlock_same]
    by_cases lk : l = k
    · have := slice_copyin de (o := 16 * (k % 64)) (by simp only [bsize]; omega) (s.disk c)
      rw [len] at this
      rw [if_pos lk, lk, this]
    · rw [if_neg lk, slice_copyin_ne (by simp only [bsize]; omega) _ (by omega)]
  · have ne : slots sb s (x, dataSlot (l / 64)) ≠ c := fun e =>
      blk (dataSlot_inj (congrArg Prod.snd (V.owned.inj _ _ filled (e.trans slot.symm))))
    rw [setBlock_ne ne, if_neg fun e => blk (by rw [e])]

theorem writeiLoop_done (done : n ≤ tot)
    (post : Q (tot, off) s) : wp (writeiLoop sb i src fuel tot off n) E Q s := by
  cases fuel with
  | zero => exact post
  | succ fuel =>
    rwa [writeiLoop, if_neg (by omega)]

theorem map_range_set {α : Type} {f g : Nat → α} {e : α} (at_k : g k = e)
    (rest : ∀ l, l < n → l ≠ k → g l = f l) :
    (List.range n).map g = ((List.range n).map f).set k e := by
  refine ext_getElem (by simp) fun l hl _ => ?_
  simp only [length_map, length_range] at hl
  rw [getElem_set]
  simp only [getElem_map, getElem_range]
  split
  · rename_i kl
    rw [← kl, at_k]
  · exact rest l hl (Ne.symm ‹_›)

theorem entries_setEnt {e : Option (Nat × Name)} (dir : din.type = tDir) (dir' : din'.type = tDir)
    (size : din'.size.toNat = max din.size.toNat (16 * (k + 1)))
    (hk : 16 * (k + 1) ≤ din.size.toNat ∨ 16 * k = din.size.toNat)
    (at_k : decode (entryAt sb s' x k) = e)
    (rest : ∀ l, 16 * (l + 1) ≤ din.size.toNat → l ≠ k → entryAt sb s' x l = entryAt sb s x l) :
    entries sb s' x din' = setEnt (entries sb s x din) k e := by
  unfold entries setEnt
  rw [if_pos dir, if_pos dir', length_map, length_range]
  rcases hk with inside | at_end
  · rw [if_pos (by omega), show din'.size.toNat / 16 = din.size.toNat / 16 by omega]
    exact map_range_set at_k fun l hl ne => by rw [rest l (by omega) ne]
  · rw [if_neg (by omega), show din'.size.toNat / 16 = din.size.toNat / 16 + 1 by omega,
      range_succ, map_append, map_singleton]
    have e' : din.size.toNat / 16 = k := by omega
    rw [e', at_k]
    congr 1
    refine map_congr_left fun l hl => ?_
    rw [mem_range] at hl
    rw [rest l (by omega) (by omega)]

theorem Grow.entry (g : Grow sb i s s') (data : SameData sb i s s')
    (a : Alive sb s (s.itable i).inum)
    (filled : Fs.slots sb s ((s.itable i).inum, dataSlot (k / 64)) ≠ 0) :
    entryAt sb s' (s.itable i).inum k = entryAt sb s (s.itable i).inum k := by
  rw [entryAt, entryAt, ← slots_of_alive a, ← slots_of_alive (g.alive a), g.slots _ filled,
    data _ filled]

theorem Grow.graph_same (g : Grow sb i s s') (data : SameData sb i s s') (V : Volume sb s)
    (a : Alive sb s (s.itable i).inum) : graph sb s' = graph sb s := by
  have at_x : graph sb s' (s.itable i).inum = graph sb s (s.itable i).inum := by
    unfold graph
    rw [if_pos a, if_pos (g.alive a), g.node]
    congr 2
    exact entries_congr fun k hk =>
      g.entry data a (by rw [slots_of_alive a]; exact V.blocks.entry_filled a hk)
  rw [graph_update V g.others, at_x, update_eq_self]

/-- The state after the write of entry `k`, before `iupdate`. -/
theorem Low.writeEntry (L : Low sb h (some i) s) (hi : 0 < h i) (v : (s.itable i).valid = true)
    (dir : (s.din i).type = tDir) (len : de.length = 16) (range : deInum de < sb.ninodes)
    (hk : 16 * (k + 1) ≤ (s.din i).size.toNat ∨ 16 * k = (s.din i).size.toNat)
    (fits : 16 * (k + 1) ≤ maxFile * bsize)
    (slot : slots sb s ((s.itable i).inum, dataSlot (k / 64)) = c) (ne : c ≠ 0) (t u : State)
    (ht : t = s.setDisk (setBlock s.disk c
      (copyin (kernelSrc de) 16 0 (16 * (k % 64)) (s.disk c)).1))
    (hu : u = if 16 * k + 16 > (t.din i).size.toNat then
      t.setDin i { t.din i with size := UInt32.ofNat (16 * k + 16) } else t) :
    Low sb h (some i) u ∧ Frame sb h s u ∧ (u.itable i).valid = true ∧
      graph sb u = update (graph sb s) (s.itable i).inum (some ⟨(s.din i).type,
        (s.din i).nlink, setEnt (entries sb s (s.itable i).inum (s.din i)) k (decode de)⟩) := by
  have a := L.table.alive hi v
  have node := L.table.node_valid hi v
  set x := (s.itable i).inum with hx
  have disk_t : t.disk = setBlock s.disk c
      (copyin (kernelSrc de) 16 0 (16 * (k % 64)) (s.disk c)).1 := by rw [ht]; rfl
  have din_t : t.din i = s.din i := by rw [ht]; rfl
  have old : ∀ l, 16 * (l + 1) ≤ (s.din i).size.toNat → slots sb s (x, dataSlot (l / 64)) ≠ 0 :=
    fun l hl => by
      rw [slots_of_alive a]
      exact L.volume.blocks.entry_filled a (by rwa [node])
  obtain ⟨low, grow, same⟩ := L.writeData hi v slot ne _ t ht fun same a' l _ hl => by
    rw [entryAt_write L.volume a a' same slot len disk_t (old l hl)]
    split
    · exact range
    · exact L.volume.ranged x l a (by rwa [node]) (by rwa [node])
  have v_t : (t.itable i).valid = true := grow.valid.trans v
  have a_t := grow.alive a
  have node_t : Fs.node sb t x = s.din i := by
    rw [← din_t, ← low.table.node_valid hi v_t, grow.inum]
  have entry_t : ∀ l, slots sb s (x, dataSlot (l / 64)) ≠ 0 →
      entryAt sb t x l = if l = k then de else entryAt sb s x l := fun l hl =>
    entryAt_write L.volume a a_t same slot len disk_t hl
  have at_k := entry_t k (by rwa [slot])
  rw [if_pos rfl] at at_k
  have frame_t : Frame sb h s t := grow.frame L.table
  have graph_t := graph_update L.volume grow.others
  rw [din_t] at hu
  by_cases larger : 16 * k + 16 > (s.din i).size.toNat
  · rw [if_pos larger] at hu
    have size : (UInt32.ofNat (16 * k + 16)).toNat = 16 * k + 16 :=
      toNat_ofNat_offset (by omega)
    have filled_u : ∀ bn, bn * bsize < (UInt32.ofNat (16 * k + 16)).toNat →
        slots sb t ((t.itable i).inum, dataSlot bn) ≠ 0 := fun bn hbn => by
      rw [size] at hbn
      rw [grow.inum, same]
      by_cases below : bn * bsize < (s.din i).size.toNat
      · exact (L.volume.blocks.slot_filled a (by rwa [node])).2
      · have : bn = k / 64 := by simp only [bsize] at *; omega
        rwa [this, slot]
    have ranged_u : ∀ l, (t.din i).type = tDir → 16 * (l + 1) ≤ (UInt32.ofNat (16 * k + 16)).toNat →
        deInum (entryAt sb t (t.itable i).inum l) < sb.ninodes := fun l _ hl => by
      rw [size] at hl
      rw [grow.inum]
      by_cases lk : l = k
      · rwa [← hx, lk, at_k]
      · have hl' : 16 * (l + 1) ≤ (s.din i).size.toNat := by omega
        rw [← hx, entry_t l (old l hl'), if_neg lk]
        exact L.volume.ranged x l a (by rwa [node]) (by rwa [node])
    obtain ⟨low_u, node_u, others_u, entry_u⟩ := low.setSize hi v_t (UInt32.ofNat (16 * k + 16))
      (by omega) filled_u ranged_u u (by rw [hu, din_t])
    rw [grow.inum, ← hx] at node_u others_u entry_u
    rw [node_t] at node_u
    have v_u : (u.itable i).valid = true := by rwa [hu, State.setDin_same]
    have a_u : Alive sb u x := ⟨a.1, by rw [node_u, dir]; decide⟩
    have frame_u : Frame sb h t u := by
      rw [hu]
      exact low.table.frame_setDin (.inr rfl) hi v_t _ (by rw [din_t])
    have graph_u := graph_update low.volume others_u
    have at_x : graph sb u x = some ⟨(s.din i).type, (s.din i).nlink,
        setEnt (entries sb s x (s.din i)) k (decode de)⟩ := by
      unfold graph
      rw [if_pos a_u, node_u]
      congr 2
      refine entries_setEnt dir dir (by simp only [size]; omega) hk
        (by rw [entry_u, at_k]) fun l hl ne => ?_
      rw [entry_u, entry_t l (old l hl), if_neg ne]
    refine ⟨low_u, frame_t.trans frame_u, v_u, ?_⟩
    rw [graph_u, at_x, graph_t, update_idem]
  · rw [if_neg larger] at hu
    subst hu
    refine ⟨low, frame_t, v_t, ?_⟩
    have at_x : graph sb u x = some ⟨(s.din i).type, (s.din i).nlink,
        setEnt (entries sb s x (s.din i)) k (decode de)⟩ := by
      unfold graph
      rw [if_pos a_t, node_t]
      congr 2
      refine entries_setEnt dir dir (by omega) hk (by rw [at_k]) fun l hl ne => ?_
      rw [entry_t l (old l hl), if_neg ne]
    rw [graph_t, at_x]

/-- `writei` of a directory entry by the kernel writes it whole or not at all. -/
theorem wp_writei_entry (L : Low sb h none s) (hi : 0 < h i)
    (v : (s.itable i).valid = true) (dir : (s.din i).type = tDir) (len : de.length = 16)
    (range : deInum de < sb.ninodes)
    (hk : 16 * (k + 1) ≤ (s.din i).size.toNat ∨ 16 * k = (s.din i).size.toNat)
    (fail : ∀ r s', r ≠ 16 → Quiet sb h h s s' → Q r s')
    (post : ∀ s', Low sb h none s' → Frame sb h s s' →
      graph sb s' = update (graph sb s) (s.itable i).inum (some ⟨(s.din i).type,
        (s.din i).nlink, setEnt (entries sb s (s.itable i).inum (s.din i)) k (decode de)⟩) →
      Q 16 s') : wp (writei sb i (kernelSrc de) (UInt32.ofNat (16 * k)) 16) E Q s := by
  have a := L.table.alive hi v
  have node := L.table.node_valid hi v
  have le := L.volume.blocks.size_le a
  rw [node] at le
  have off : (UInt32.ofNat (16 * k)).toNat = 16 * k := toNat_ofNat_offset (by omega)
  have add : (UInt32.ofNat (16 * k) + 16).toNat = 16 * k + 16 := by
    rw [UInt32.toNat_add, off]
    simp only [maxFile, ndirect, nindirect, bsize] at le
    exact Nat.mod_eq_of_lt (by simp only [UInt32.reduceToNat]; omega)
  unfold writei
  simp only [wp_bind, wp_get]
  rw [if_neg (by simp only [gt_iff_lt, lt_iff_toNat_lt, off, add]; omega)]
  refine wp_ite (fun _ => fail _ _ (by decide) L.quietRefl) fun fits => ?_
  rw [add] at fits
  have hbn : 16 * k / bsize < maxFile := by
    rw [Nat.div_lt_iff_lt_mul (by decide)]
    omega
  rw [off, wp_bind, show (16 : UInt32).toNat = 15 + 1 from rfl, writeiLoop, if_pos (by omega), wp_bind]
  refine wp_bmap ⟨L.table.weaken, L.volume⟩ (.inr rfl) hi v hbn fun addr s' low grow data slot => ?_
  have v' : (s'.itable i).valid = true := grow.valid.trans v
  have node' := low.table.node_valid hi v'
  have din' : s'.din i = { s.din i with addrs := (s'.din i).addrs } := by
    rw [← node', ← node, grow.inum, grow.node]
  have frame' : Frame sb h s s' := grow.frame L.table
  have graph' : graph sb s' = graph sb s := grow.graph_same data L.volume a
  refine wp_ite (fun _ => ?_) fun ne => ?_
  · -- no block for the entry
    simp only [wp_pure, wp_bind, wp_modify]
    rw [if_neg (by rw [din']; simp only; omega)]
    refine wp_iupdate low (.inr rfl) hi v' fun q => ?_
    exact fail _ _ (by decide) ⟨q.low, frame'.trans q.frame, q.graph.trans graph'⟩
  · have aligned : 16 * k % bsize = 16 * (k % 64) := by simp only [bsize]; omega
    have blk : 16 * k / bsize = k / 64 := by simp only [bsize]; omega
    have slot' := slot ne
    rw [blk, ← grow.inum] at slot'
    have size' : (s'.din i).size = (s.din i).size := by rw [din']
    have type' : (s'.din i).type = (s.din i).type := by rw [din']
    have nlink' : (s'.din i).nlink = (s.din i).nlink := by rw [din']
    simp only [wp_bind, wp_get, wp_set]
    rw [aligned, show min (15 + 1 - 0) (bsize - 16 * (k % 64)) = 16 by simp only [bsize]; omega,
      if_pos (copyin_kernel de 16 0 _ _).1]
    refine writeiLoop_done (by omega) ?_
    simp only [wp_modify, zero_add]
    obtain ⟨low2, frame2, v2, graph2⟩ := low.writeEntry hi v' (by rwa [type']) len range
      (by rwa [size']) (by omega) slot' (by simpa [← UInt32.toNat_inj] using ne) _ _ rfl rfl
    refine wp_iupdate low2 (.inr rfl) hi v2 fun q => ?_
    refine post _ q.low ((frame'.trans frame2).trans q.frame) ?_
    have ents : entries sb s' (s.itable i).inum (s'.din i) =
        entries sb s (s.itable i).inum (s.din i) := by
      have e : entries sb s' (s.itable i).inum (s'.din i) =
          entries sb s' (s.itable i).inum (s.din i) := by
        rw [entries, entries, size', type']
      rw [e]
      exact entries_congr fun l hl => grow.entry data a (by
        rw [slots_of_alive a]
        exact L.volume.blocks.entry_filled a (by rwa [node]))
    rw [grow.inum, graph', type', nlink', ents] at graph2
    exact q.graph.trans graph2

end Writing

end Xv6.Fs
