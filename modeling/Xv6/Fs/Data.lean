import Xv6.Fs.Contents

/-! The bytes of a file: what `readi` returns of them, and what a round of the loop of `writei`
changes. -/

namespace Xv6.Fs

open Wp

def fileByte (sb : Superblock) (s : State) (x o : Nat) : UInt8 :=
  Bytes.byteAt (s.disk (addrAt s.disk (node sb s x) (dataSlot (o / bsize)))) (o % bsize)

def contents (sb : Superblock) (s : State) (x o n : Nat) : List UInt8 :=
  (List.range n).map fun j => fileByte sb s x (o + j)

variable {sb : Superblock} {h : Slot → Nat} {dirty : Option Slot} {s s' s'' : State}
  {i j : Slot} {x o n : Nat} {E : Stop → Prop}

theorem contents_add : contents sb s x o (n + m) =
    contents sb s x o n ++ contents sb s x (o + n) m := by
  simp only [contents, List.range_add, List.map_append, List.map_map, add_assoc]
  rfl

theorem contents_congr (same : ∀ j < n, fileByte sb s x (o + j) = g j) :
    contents sb s x o n = (List.range n).map g :=
  List.map_congr_left fun j hj => same j (List.mem_range.mp hj)

theorem fileByte_slots (a : Alive sb s x) : fileByte sb s x o =
    Bytes.byteAt (s.disk (slots sb s (x, dataSlot (o / bsize)))) (o % bsize) := by
  rw [slots_of_alive a, fileByte]

theorem SameFile.fileByte (S : SameFile sb s s' x) (a : Alive sb s x)
    (filled : Fs.slots sb s (x, dataSlot (o / bsize)) ≠ 0) :
    fileByte sb s' x o = fileByte sb s x o := by
  rw [fileByte_slots a, fileByte_slots (S.alive.mpr a), S.slots, S.blocks a _ filled]

theorem Grow.fileByte (g : Grow sb i s s') (data : SameData sb i s s')
    (a : Alive sb s (s.itable i).inum)
    (filled : Fs.slots sb s ((s.itable i).inum, dataSlot (o / bsize)) ≠ 0) :
    fileByte sb s' (s.itable i).inum o = fileByte sb s (s.itable i).inum o := by
  rw [fileByte_slots a, fileByte_slots (g.alive a), g.slots _ filled, data _ filled]

section Reading

theorem slice_eq_contents (a : Alive sb s x) (slot : slots sb s (x, dataSlot (off / bsize)) = b)
    (fits : off % bsize + m ≤ bsize) :
    slice (s.disk b) (off % bsize) m = contents sb s x off m := by
  refine (contents_congr fun j hj => ?_).symm
  have block : (off + j) / bsize = off / bsize := by
    simp only [bsize] at *
    omega
  have inside : (off + j) % bsize = off % bsize + j := by
    simp only [bsize] at *
    omega
  rw [fileByte_slots a, block, slot, inside]

def Filled (sb : Superblock) (s : State) (x : Nat) : Prop :=
  ∀ bn, bn * bsize < (node sb s x).size.toNat →
    bn < maxFile ∧ slots sb s (x, dataSlot bn) ≠ 0

theorem Base.filled (B : Base sb h dirty s) (hi : 0 < h i) (v : (s.itable i).valid = true) :
    Filled sb s (s.itable i).inum :=
  fun _ below => B.blocks.slot_filled (B.table.alive hi v) below

variable {Q : Int × List UInt8 → State → Prop}

theorem wp_readiLoop_contents (T : Table sb h none s) (hi : 0 < h i) (v : (s.itable i).valid = true)
    (filled : Filled sb s (s.itable i).inum) (off₀ n : Nat)
    (below : off₀ + n ≤ (s.din i).size.toNat)
    (post : Q (n, contents sb s (s.itable i).inum off₀ n) s) (fuel tot : Nat) (le : tot ≤ n)
    (enough : n ≤ tot + fuel) :
    wp (readiLoop sb i (fun _ _ => true) fuel tot (off₀ + tot) n
      (contents sb s (s.itable i).inum off₀ tot)) E Q s := by
  have a := T.alive hi v
  induction fuel generalizing tot with
  | zero =>
    obtain rfl : tot = n := by omega
    exact post
  | succ fuel ih =>
    refine wp_ite (fun lt => ?_) fun ge => ?_
    · have inside : (off₀ + tot) / bsize * bsize < (node sb s (s.itable i).inum).size.toNat := by
        rw [T.node_valid hi v]
        have := Nat.div_mul_le_self (off₀ + tot) bsize
        omega
      obtain ⟨hbn, present⟩ := filled _ inside
      rw [wp_bind]
      refine wp_bmap_filled T hi v hbn present fun addr ne slot => ?_
      rw [if_neg ne]
      simp only [wp_bind, wp_get, if_true]
      have room := Nat.mod_lt (off₀ + tot) (show 0 < bsize by decide)
      generalize hm : min (n - tot) (bsize - (off₀ + tot) % bsize) = m
      rw [slice_eq_contents a slot.symm (by omega), ← contents_add, add_assoc]
      exact ih (tot + m) (by omega) (by omega)
    · obtain rfl : tot = n := by omega
      exact post

theorem wp_readi_contents (T : Table sb h none s) (hi : 0 < h i) (v : (s.itable i).valid = true)
    (filled : Filled sb s (s.itable i).inum) {off n : UInt32}
    (inside : off.toNat ≤ (s.din i).size.toNat) (nowrap : off.toNat + n.toNat < 2 ^ 32)
    (post : ∀ k, k = min n.toNat ((s.din i).size.toNat - off.toNat) →
      Q (k, contents sb s (s.itable i).inum off.toNat k) s) :
    wp (readi sb i (fun _ _ => true) off n) E Q s := by
  have add : (off + n).toNat = off.toNat + n.toNat := by
    rw [UInt32.toNat_add, Nat.mod_eq_of_lt nowrap]
  unfold readi
  simp only [wp_bind, wp_get]
  rw [if_neg (by simp only [gt_iff_lt, UInt32.lt_iff_toNat_lt, add]; omega)]
  have rest : ((s.din i).size - off).toNat = (s.din i).size.toNat - off.toNat :=
    UInt32.toNat_sub_of_le _ _ (UInt32.le_iff_toNat_le.mpr inside)
  have count : (if off + n > (s.din i).size then (s.din i).size - off else n).toNat =
      min n.toNat ((s.din i).size.toNat - off.toNat) := by
    by_cases past : off + n > (s.din i).size
    · rw [if_pos past, rest]
      rw [gt_iff_lt, UInt32.lt_iff_toNat_lt, add] at past
      omega
    · rw [if_neg past]
      rw [gt_iff_lt, UInt32.lt_iff_toNat_lt, add] at past
      omega
  rw [count]
  exact wp_readiLoop_contents T hi v filled off.toNat _ (by omega) (post _ rfl) _ 0 (by omega) (by omega)

end Reading

section Writing

theorem Base.fileByte_write (B : Base sb h (some i) s) (hi : 0 < h i)
    (v : (s.itable i).valid = true) (slot : slots sb s ((s.itable i).inum, dataSlot bn) = c)
    (ne : c ≠ 0) (data : Block) :
    (∀ o, o / bsize = bn → fileByte sb (s.setDisk (setBlock s.disk c data)) (s.itable i).inum o =
      Bytes.byteAt data (o % bsize)) ∧
    ∀ o, o / bsize ≠ bn → slots sb s ((s.itable i).inum, dataSlot (o / bsize)) ≠ 0 →
      fileByte sb (s.setDisk (setBlock s.disk c data)) (s.itable i).inum o =
        fileByte sb s (s.itable i).inum o := by
  obtain ⟨-, grow, same⟩ := B.writeData hi v slot ne data _ rfl
  have a := B.table.alive hi v
  have a' := grow.alive a
  refine ⟨fun o eq => ?_, fun o ne' full => ?_⟩
  · rw [fileByte_slots a', eq, same, slot]
    exact congrArg (Bytes.byteAt · _) setBlock_same
  · have apart : slots sb s ((s.itable i).inum, dataSlot (o / bsize)) ≠ c := fun eq =>
      ne' (dataSlot_inj (congrArg Prod.snd (B.blocks.owned.inj _ _ full (eq.trans slot.symm))))
    rw [fileByte_slots a', fileByte_slots a, same]
    exact congrArg (Bytes.byteAt · _) (setBlock_ne apart)

/-- A round of the loop of `writei`: some bytes are written at `off`, and the others stay. -/
theorem wp_writeiOnce (L : Low sb h (some i) s) (hi : 0 < h i)
    (v : (s.itable i).valid = true) (file : (s.din i).type ≠ tDir)
    {g : Nat → UInt8} (lt : tot < n) (fits : off + (n - tot) ≤ maxFile * bsize)
    (all : ∀ k < n, src k = some (g k)) (space : ∀ t, bmap sb i (off / bsize) s ≠ .ok (0, t))
    (post : ∀ m s', 0 < m → tot + m ≤ n → Low sb h (some i) s' → Grow sb i s s' →
      (∀ o, off ≤ o → o < off + m → slots sb s' ((s.itable i).inum, dataSlot (o / bsize)) ≠ 0 ∧
        fileByte sb s' (s.itable i).inum o = g (tot + (o - off))) →
      (∀ o, ¬(off ≤ o ∧ o < off + m) → slots sb s ((s.itable i).inum, dataSlot (o / bsize)) ≠ 0 →
        fileByte sb s' (s.itable i).inum o = fileByte sb s (s.itable i).inum o) →
      Q (tot + m, off + m) s') :
    wp (writeiLoop sb i src 1 tot off n) E Q s := by
  have a := L.table.alive hi v
  have hbn : off / bsize < maxFile := by
    rw [Nat.div_lt_iff_lt_mul (by decide)]
    omega
  rw [writeiLoop, if_pos lt, wp_bind]
  refine wp_returns (fun t => space t) ?_
  refine wp_bmap L (.inr rfl) hi v hbn fun addr s' low grow data slot ne => ?_
  have v' : (s'.itable i).valid = true := grow.valid.trans v
  have type : (s'.din i).type ≠ tDir := by
    rwa [← low.table.node_valid hi v', grow.inum, grow.node, L.table.node_valid hi v]
  rw [if_neg ne]
  simp only [wp_bind, wp_get]
  have room := Nat.mod_lt off (show 0 < bsize by decide)
  generalize hm : min (n - tot) (bsize - off % bsize) = m
  have readable : ∀ k, tot ≤ k → k < tot + m → src k = some (g k) := fun k _ high =>
    all k (by omega)
  obtain ⟨copied, bytes⟩ := copyin_bytes tot (off % bsize) (s'.disk addr.toNat) readable
  generalize copyin src m tot (off % bsize) (s'.disk addr.toNat) = copy at copied bytes ⊢
  obtain ⟨written, ok⟩ := copy
  simp only [wp_set]
  rw [if_pos copied]
  have slot' := slot ne
  have filled : addr.toNat ≠ 0 := by simpa [← UInt32.toNat_inj] using ne
  rw [← grow.inum] at slot'
  obtain ⟨low', grow', same⟩ := low.writeData hi v' slot' filled written _ rfl
    fun _ _ _ dir => absurd dir type
  obtain ⟨here, there⟩ := low.base.fileByte_write hi v' slot' filled written
  set t := s'.setDisk (setBlock s'.disk addr.toNat written) with ht
  rw [grow.inum] at same slot' here there
  have a' := grow.alive a
  refine post m t (by omega) (by omega) low' (grow.trans grow') (fun o low high => ?_)
    fun o out full => ?_
  · have block : o / bsize = off / bsize := by
      simp only [bsize] at *
      omega
    have place : o % bsize = off % bsize + (o - off) := by
      simp only [bsize] at *
      omega
    refine ⟨?_, ?_⟩
    · rwa [same, block, slot']
    · rw [here o block, bytes (by omega), if_pos (by omega), place, Nat.add_sub_cancel_left]
  · have old := grow.fileByte data a full
    by_cases block : o / bsize = off / bsize
    · have apart : ¬(off % bsize ≤ o % bsize ∧ o % bsize < off % bsize + m) := by
        simp only [bsize] at *
        omega
      rw [here o block, bytes (by omega), if_neg apart, ← old, fileByte_slots a', block, slot']
    · rw [there o block (by rwa [grow.slots _ full]), old]

end Writing

end Xv6.Fs
