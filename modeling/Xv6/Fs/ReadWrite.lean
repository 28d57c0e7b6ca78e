import Xv6.Fs.Boot
import Xv6.Fs.Data

/-! `readi` and `writei` on the bytes of a file. `writei` stops early when there is no block left or
its source cannot be read; in the second case the bytes before are in the file's block all the same.
-/

namespace Xv6.Fs

open Wp Finset UInt32

variable {sb : Superblock} {h : Slot → Nat} {dirty : Option Slot} {s s0 s' : State}
  {i : Slot} {E : Stop → Prop} {src : Nat → Option UInt8} {off n tot p q : Nat}

/-- The copy goes up to the first byte that cannot be read. -/
theorem copyin_upto (src : Nat → Option UInt8) (m : Nat) : ∀ (tot o : Nat) (data : Block),
    ∃ p, p ≤ m ∧ (∀ k, k < p → src (tot + k) ≠ none) ∧
      (copyin src m tot o data).2 = decide (p = m) ∧ (p < m → src (tot + p) = none) ∧
      (o + m ≤ bsize → ∀ j, Bytes.byteAt (copyin src m tot o data).1 j =
        if o ≤ j ∧ j < o + p then (src (tot + (j - o))).getD 0 else Bytes.byteAt data j) := by
  induction m with
  | zero =>
    intro tot o data
    refine ⟨0, le_rfl, (by intros; contradiction), rfl, (by intros; contradiction), fun _ j => ?_⟩
    rw [if_neg (by omega), copyin]
  | succ m ih =>
    intro tot o data
    rw [copyin]
    split
    · rename_i none
      refine ⟨0, by omega, (by intros; contradiction), rfl, fun _ => none, fun _ j => ?_⟩
      rw [if_neg (by omega)]
    · rename_i v some
      obtain ⟨p, le, before, copied, stop, bytes⟩ := ih (tot + 1) (o + 1) (Bytes.setByte data o v)
      refine ⟨p + 1, by omega, fun k hk => ?_, ?_, fun lt => ?_, fun fits j => ?_⟩
      · rcases k with - | k
        · rw [add_zero, some]
          rintro ⟨⟩
        · rw [show tot + (k + 1) = tot + 1 + k by omega]
          exact before k (by omega)
      · rw [copied, decide_eq_decide]
        omega
      · rw [show tot + (p + 1) = tot + 1 + p by omega]
        exact stop (by omega)
      · rw [bytes (by omega) j]
        by_cases first : j = o
        · subst first
          rw [if_neg (by omega), Bytes.byteAt_setByte_same (by omega), if_pos (by omega),
            Nat.sub_self, add_zero, some, Option.getD_some]
        · rw [Bytes.byteAt_setByte_ne first]
          by_cases inside : o + 1 ≤ j ∧ j < o + 1 + p
          · rw [if_pos inside, if_pos (by omega), show tot + 1 + (j - (o + 1)) = tot + (j - o) by omega]
          · rw [if_neg inside, if_neg (by omega)]

/-- The first `q` of the `n` bytes of `src` went to the file of entry `i` at `off`, which may have
gained blocks there. -/
structure Placed (sb : Superblock) (h : Slot → Nat) (i : Slot) (src : Nat → Option UInt8)
    (off n q : Nat) (s₀ s : State) : Prop where
  base : Base sb h (some i) s
  grow : Grow sb i s₀ s
  le : q ≤ n
  readable : ∀ k, k < q → src k ≠ none
  present : ∀ o, off ≤ o → o < off + q → slots sb s ((s₀.itable i).inum, dataSlot (o / bsize)) ≠ 0
  placed : ∀ o, off ≤ o → o < off + q →
    fileByte sb s (s₀.itable i).inum o = (src (o - off)).getD 0
  kept : ∀ o, ¬(off ≤ o ∧ o < off + q) →
    slots sb s₀ ((s₀.itable i).inum, dataSlot (o / bsize)) ≠ 0 →
    fileByte sb s (s₀.itable i).inum o = fileByte sb s₀ (s₀.itable i).inum o
  touched : ∀ k, slots sb s ((s₀.itable i).inum, k) ≠ slots sb s₀ ((s₀.itable i).inum, k) →
    ∃ bn, off / bsize ≤ bn ∧ bn * bsize < off + n ∧ mapSlots bn k

/-- Why the loop of `writei` ends after `tot` of `n` bytes, with `p` more bytes in a block. -/
inductive Ended (sb : Superblock) (x : Nat) (src : Nat → Option UInt8) (off n tot p : Nat)
    (s : State) : Prop
  | done (all : tot = n) (none : p = 0)
  | full (lt : tot < n) (none : p = 0) (slot : slots sb s (x, dataSlot ((off + tot) / bsize)) = 0)
      (used : ∀ b, b < sb.size → sb.bit s.disk b = true)
  | fault (lt : tot + p < n) (unreadable : src (tot + p) = none)
      (start : tot = 0 ∨ (off + tot) % bsize = 0) (block : (off + tot) % bsize + p < bsize)

namespace Placed

theorem mapped (P : Placed sb h i src off n q s0 s) (base : Base sb h (some i) s')
    (alive : Alive sb s0 (s0.itable i).inum) (lt : q < n)
    (M : Mapped sb i (mapSlots ((off + q) / bsize)) (dataSlot ((off + q) / bsize)) a s s') :
    Placed sb h i src off n q s0 s' := by
  obtain ⟨grow, data, -, -, rest⟩ := M
  have fileByte := fun o => grow.fileByte (o := o) data
  have slots := grow.slots
  rw [P.grow.inum] at rest fileByte slots
  have alive' := P.grow.alive alive
  refine ⟨base, P.grow.trans grow, P.le, P.readable, fun o lo hi => ?_, fun o lo hi => ?_,
    fun o out full => ?_, fun k changed => ?_⟩
  · rw [slots _ (P.present o lo hi)]
    exact P.present o lo hi
  · rw [fileByte o alive' (P.present o lo hi), P.placed o lo hi]
  · rw [fileByte o alive' (by rwa [P.grow.slots _ full]), P.kept o out full]
  · by_cases new : mapSlots ((off + q) / bsize) k
    · refine ⟨_, Nat.div_le_div_right (Nat.le_add_right off q), ?_, new⟩
      have := Nat.div_mul_le_self (off + q) bsize
      omega
    · rw [rest k new] at changed
      exact P.touched k changed

/-- The next `p` bytes go to their block. -/
theorem write {data : Block} (P : Placed sb h i src off n q s0 s) (hi : 0 < h i)
    (v : (s.itable i).valid = true) (alive : Alive sb s0 (s0.itable i).inum)
    (slot : slots sb s ((s0.itable i).inum, dataSlot ((off + q) / bsize)) = c) (ne : c ≠ 0)
    (fits : (off + q) % bsize + p ≤ bsize) (le : q + p ≤ n)
    (readable : ∀ k, k < p → src (q + k) ≠ none)
    (bytes : ∀ j, Bytes.byteAt data j =
      if (off + q) % bsize ≤ j ∧ j < (off + q) % bsize + p then
        (src (q + (j - (off + q) % bsize))).getD 0 else Bytes.byteAt (s.disk c) j) :
    Placed sb h i src off n (q + p) s0 (s.setDisk (setBlock s.disk c data)) := by
  have slot' := slot
  rw [← P.grow.inum] at slot'
  obtain ⟨base, grow, same⟩ := P.base.writeData hi v slot' ne data _ rfl
  obtain ⟨here, there⟩ := P.base.fileByte_write hi v slot' ne data
  rw [P.grow.inum] at same here there
  have alive' := P.grow.alive alive
  -- a byte that is not written now stays, whether it is in the block or not
  have stays : ∀ o, ¬(off + q ≤ o ∧ o < off + q + p) →
      slots sb s ((s0.itable i).inum, dataSlot (o / bsize)) ≠ 0 →
      fileByte sb (s.setDisk (setBlock s.disk c data)) (s0.itable i).inum o =
        fileByte sb s (s0.itable i).inum o := by
    intro o out full
    by_cases block : o / bsize = (off + q) / bsize
    · have apart : ¬((off + q) % bsize ≤ o % bsize ∧ o % bsize < (off + q) % bsize + p) := by
        simp only [bsize] at *
        omega
      rw [here o block, bytes, if_neg apart, fileByte_slots alive', block, slot]
    · exact there o block full
  refine ⟨base, P.grow.trans grow, le, fun k hk => ?_, fun o lo up => ?_, fun o lo up => ?_,
    fun o out full => ?_, fun k changed => ?_⟩
  · by_cases old : k < q
    · exact P.readable k old
    · have := readable (k - q) (by omega)
      rwa [Nat.add_sub_cancel' (by omega)] at this
  · rw [same]
    by_cases old : o < off + q
    · exact P.present o lo old
    · have block : o / bsize = (off + q) / bsize := by
        simp only [bsize] at *
        omega
      rwa [block, slot]
  · by_cases old : o < off + q
    · rw [stays o (by omega) (P.present o lo old), P.placed o lo old]
    · have block : o / bsize = (off + q) / bsize := by
        simp only [bsize] at *
        omega
      have place : o % bsize = (off + q) % bsize + (o - off - q) := by
        simp only [bsize] at *
        omega
      rw [here o block, bytes, if_pos (by omega), place, Nat.add_sub_cancel_left,
        Nat.add_sub_cancel' (by omega)]
  · rw [stays o (by omega) (by rwa [P.grow.slots _ full]), P.kept o (by omega) full]
  · rw [same] at changed
    exact P.touched k changed

end Placed

/-- The loop of `writei`, from byte `tot` on. -/
theorem wp_writeiLoop_placed (hi : 0 < h i)
    (alive : Alive sb s0 (s0.itable i).inum) (v : (s0.itable i).valid = true)
    (fits : off + n ≤ maxFile * bsize)
    (post : ∀ tot p s', Placed sb h i src off n (tot + p) s0 s' →
      Ended sb (s0.itable i).inum src off n tot p s' → Q (tot, off + tot) s') (fuel : Nat) :
    ∀ (s : State) (tot : Nat), Placed sb h i src off n tot s0 s → n ≤ tot + fuel →
      (tot = 0 ∨ (off + tot) % bsize = 0 ∨ tot = n) →
      wp (writeiLoop sb i src fuel tot (off + tot) n) E Q s := by
  induction fuel with
  | zero =>
    intro s tot P enough _
    exact post tot 0 s P (.done (by have := P.le; omega) rfl)
  | succ fuel ih =>
    intro s tot P enough start
    have le := P.le
    refine wp_ite (fun lt => ?_) fun ge => post tot 0 s P (.done (by omega) rfl)
    have hbn : (off + tot) / bsize < maxFile := by
      rw [Nat.div_lt_iff_lt_mul (by decide)]
      omega
    rw [wp_bind]
    refine P.base.wp_bmap (.inr rfl) hi (P.grow.valid.trans v) hbn fun a s' base M => ?_
    have P' := P.mapped base alive lt M
    refine wp_ite (fun zero => ?_) fun ne => ?_
    · obtain ⟨slot, used⟩ := M.full zero
      rw [P.grow.inum] at slot
      exact post tot 0 s' P' (.full lt rfl slot used)
    · have slot := M.slot ne
      rw [P.grow.inum] at slot
      have filled : a.toNat ≠ 0 := by simpa [← UInt32.toNat_inj] using ne
      simp only [wp_bind, wp_get]
      have room := Nat.mod_lt (off + tot) (show 0 < bsize by decide)
      generalize hm : min (n - tot) (bsize - (off + tot) % bsize) = m
      obtain ⟨p, le', before, copied, stop, bytes⟩ :=
        copyin_upto src m tot ((off + tot) % bsize) (s'.disk a.toNat)
      generalize copyin src m tot ((off + tot) % bsize) (s'.disk a.toNat) = copy at copied bytes ⊢
      obtain ⟨written, ok⟩ := copy
      simp only [wp_set]
      have P'' := P'.write hi (P'.grow.valid.trans v) alive slot filled (by omega) (by omega) before
        (bytes (by omega))
      refine wp_ite (fun yes => ?_) fun no => ?_
      · have whole : p = m := of_decide_eq_true (copied.symm.trans yes)
        subst whole
        rw [add_assoc]
        refine ih _ _ P'' (by omega) ?_
        simp only [bsize] at *
        omega
      · have short : p ≠ m := of_decide_eq_false (copied.symm.trans (by simpa using no))
        refine post tot p _ P'' (.fault (by omega) (stop (by omega)) ?_ (by omega))
        rcases start with zero | aligned | end_
        · exact .inl zero
        · exact .inr aligned
        · omega

/-- A call of `writei` places `tot` bytes and counts them in the size, and `p` more are in a block
of the file. -/
structure Written (sb : Superblock) (h : Slot → Nat) (i : Slot) (src : Nat → Option UInt8)
    (off n tot p : Nat) (s s' : State) : Prop where
  base : Base sb h none s'
  le : tot + p ≤ n
  readable : ∀ k, k < tot + p → src k ≠ none
  entry : (s'.itable i).inum = (s.itable i).inum ∧ (s'.itable i).valid = true
  entries : ∀ j, j ≠ i → s'.itable j = s.itable j
  present : ∀ o, off ≤ o → o < off + (tot + p) →
    slots sb s' ((s.itable i).inum, dataSlot (o / bsize)) ≠ 0
  node : node sb s' (s.itable i).inum = { node sb s (s.itable i).inum with
    addrs := (node sb s' (s.itable i).inum).addrs
    size := (node sb s' (s.itable i).inum).size }
  size : (Fs.node sb s' (s.itable i).inum).size.toNat =
    max (Fs.node sb s (s.itable i).inum).size.toNat (off + tot)
  placed : ∀ o, off ≤ o → o < off + (tot + p) →
    fileByte sb s' (s.itable i).inum o = (src (o - off)).getD 0
  kept : ∀ o, ¬(off ≤ o ∧ o < off + (tot + p)) → o < (Fs.node sb s (s.itable i).inum).size.toNat →
    fileByte sb s' (s.itable i).inum o = fileByte sb s (s.itable i).inum o
  others : ∀ y, y < sb.ninodes → y ≠ (s.itable i).inum → SameFile sb s s' y
  slots : ∀ k, Fs.slots sb s ((s.itable i).inum, k) ≠ 0 →
    Fs.slots sb s' ((s.itable i).inum, k) = Fs.slots sb s ((s.itable i).inum, k)
  touched : ∀ k, Fs.slots sb s' ((s.itable i).inum, k) ≠ Fs.slots sb s ((s.itable i).inum, k) →
    ∃ bn, off / bsize ≤ bn ∧ bn * bsize < off + n ∧ mapSlots bn k
  ended : Ended sb (s.itable i).inum src off n tot p s'

theorem Placed.filled (P : Placed sb h i src off n q s0 s) (B : Blocks sb s0)
    (alive : Alive sb s0 (s0.itable i).inum)
    (inside : off ≤ (node sb s0 (s0.itable i).inum).size.toNat) (lt : bn * bsize < off + q) :
    slots sb s ((s0.itable i).inum, dataSlot bn) ≠ 0 := by
  by_cases before : bn * bsize < off
  · have full := (B.slot_filled alive (lt_of_lt_of_le before inside)).2
    rwa [P.grow.slots _ full]
  · have := P.present (bn * bsize) (by omega) lt
    rwa [Nat.mul_div_cancel _ (by decide)] at this

theorem Placed.finish (P : Placed sb h i src off n (tot + p) s0 s)
    (ended : Ended sb (s0.itable i).inum src off n tot p s) (B : Base sb h none s0) (hi : 0 < h i)
    (v : (s0.itable i).valid = true) (inside : off ≤ (s0.din i).size.toNat)
    (fits : off + n ≤ maxFile * bsize)
    (ht : t = if off + tot > (s.din i).size.toNat then
      s.setDin i { s.din i with size := UInt32.ofNat (off + tot) } else s) :
    Written sb h i src off n tot p s0 (t.flush sb i) := by
  have alive := B.table.alive hi v
  have v' : (s.itable i).valid = true := P.grow.valid.trans v
  have alive' := P.grow.alive alive
  have node₀ := B.table.node_valid hi v
  have node' := P.base.table.node_valid hi v'
  rw [P.grow.inum] at node'
  have le := P.le
  have size' : (s.din i).size = (s0.din i).size := by rw [← node', P.grow.node, node₀]
  -- the state between the two, with the new size in the copy
  obtain ⟨base, node_t, disk, entry, entries, others⟩ : Base sb h (some i) t ∧
      (node sb t (s0.itable i).inum = { node sb s (s0.itable i).inum with
        size := (node sb t (s0.itable i).inum).size } ∧
      (node sb t (s0.itable i).inum).size.toNat = max (s0.din i).size.toNat (off + tot)) ∧
      t.disk = s.disk ∧ ((t.itable i).inum = (s0.itable i).inum ∧ (t.itable i).valid = true) ∧
      (∀ j, j ≠ i → t.itable j = s.itable j) ∧
      ∀ y, y < sb.ninodes → y ≠ (s0.itable i).inum → SameFile sb s t y := by
    by_cases grows : off + tot > (s.din i).size.toNat
    · rw [if_pos grows] at ht
      have size : (UInt32.ofNat (off + tot)).toNat = off + tot := toNat_ofNat_offset (by omega)
      obtain ⟨base, node_t, others, -⟩ := P.base.setSize hi v' (UInt32.ofNat (off + tot))
        (by rw [size]; omega) (fun bn lt => by
          rw [size] at lt
          rw [P.grow.inum]
          exact P.filled B.blocks alive (by rwa [node₀]) (by omega)) t ht
      rw [P.grow.inum] at node_t others
      refine ⟨base, ⟨by rw [node_t], ?_⟩, by rw [ht]; rfl, ?_, fun j ne => ?_, others⟩
      · rw [node_t, size, ← size']
        omega
      · rw [ht, State.setDin_same]
        exact ⟨P.grow.inum, v'⟩
      · rw [ht, State.setDin_ne ne]
    · rw [if_neg grows] at ht
      subst ht
      refine ⟨P.base, ⟨rfl, ?_⟩, rfl, ⟨P.grow.inum, v'⟩, fun _ _ => rfl, fun y _ _ => sameFile_of_disk rfl rfl⟩
      rw [node', size']
      rw [size'] at grows
      omega
  have alive_t : Alive sb t (s0.itable i).inum := ⟨alive.1, by rw [node_t.1]; exact alive'.2⟩
  have slots_t : ∀ k, slots sb t ((s0.itable i).inum, k) = slots sb s ((s0.itable i).inum, k) := by
    intro k
    rw [slots_of_alive alive_t, slots_of_alive alive', node_t.1, disk]
    rfl
  have byte_t : ∀ o, fileByte sb t (s0.itable i).inum o = fileByte sb s (s0.itable i).inum o := by
    intro o
    rw [fileByte_slots alive_t, fileByte_slots alive', slots_t, disk]
  obtain ⟨base', same⟩ := base.flush (.inr rfl) hi entry.2
  have S := same _ alive.1
  refine ⟨base', le, P.readable, entry,
    fun j ne => (entries j ne).trans (P.grow.entries j ne), fun o lo up => ?_, ?_, ?_,
    fun o lo up => ?_, fun o out lt => ?_, fun y lt ne => ?_,
    fun k full => ?_, fun k changed => P.touched k ?_, ?_⟩
  · rw [S.slots, slots_t]
    exact P.present o lo up
  · rw [S.node, node_t.1, P.grow.node]
  · rw [S.node, node_t.2, node₀]
  · rw [S.fileByte alive_t (by rw [slots_t]; exact P.present o lo up), byte_t, P.placed o lo up]
  · have full := (B.blocks.slot_filled alive
      (lt_of_le_of_lt (Nat.div_mul_le_self o bsize) lt)).2
    rw [S.fileByte alive_t (by rwa [slots_t, P.grow.slots _ full]), byte_t,
      P.kept o out full]
  · exact ((P.grow.others y lt ne).trans (others y lt ne)).trans (same y lt)
  · rw [S.slots, slots_t, P.grow.slots k full]
  · rwa [S.slots, slots_t] at changed
  · cases ended with
    | done all none => exact .done all none
    | full lt none slot used =>
      refine .full lt none (by rwa [S.slots, slots_t]) fun b ub => ?_
      rw [← used b ub, ← disk]
      exact Superblock.bit_setInode (by rw [entry.1]; exact alive.1)
    | fault lt unreadable start block => exact .fault lt unreadable start block

theorem wp_writei_placed (B : Base sb h none s) (hi : 0 < h i) (v : (s.itable i).valid = true)
    (src : Nat → Option UInt8) {off n : UInt32} (inside : off.toNat ≤ (s.din i).size.toNat)
    (fits : off.toNat + n.toNat ≤ maxFile * bsize)
    (post : ∀ tot p s', Written sb h i src off.toNat n.toNat tot p s s' → Q tot s') :
    wp (writei sb i src off n) E Q s := by
  have alive := B.table.alive hi v
  have add : (off + n).toNat = off.toNat + n.toNat := by
    rw [UInt32.toNat_add, Nat.mod_eq_of_lt]
    simp only [maxFile, ndirect, nindirect, bsize] at fits
    omega
  unfold writei
  simp only [wp_bind, wp_get]
  rw [if_neg (by simp only [gt_iff_lt, lt_iff_toNat_lt, add]; omega),
    if_neg (by rw [add]; omega), wp_bind]
  have start : Placed sb h i src off.toNat n.toNat 0 s s := by
    refine ⟨⟨B.table.weaken, B.blocks⟩, .refl, Nat.zero_le _, (by intros; contradiction),
      fun o lo up => ?_,
      fun o lo up => ?_, fun _ _ _ => rfl, fun k changed => absurd rfl changed⟩
    · omega
    · omega
  refine wp_writeiLoop_placed hi alive v fits (fun tot p s' P ended => ?_) n.toNat s 0 start
    (by omega) (.inl rfl)
  simp only [wp_bind, wp_modify, wp_pure]
  exact post tot p _ (P.finish ended B hi v inside fits rfl)

section Space

variable (sb) (s)

def freeBlocks : Finset Nat := (Finset.range sb.size).filter fun b => sb.bit s.disk b = false

/-- The empty slots of the file `x` that a write of `n` bytes at `off` needs. -/
def wanted (x off n : Nat) : Finset Nat :=
  ((Finset.Ico (off / bsize) ((off + n + bsize - 1) / bsize)).image dataSlot ∪
    if ndirect * bsize < off + n then {ndirect} else ∅).filter fun k => slots sb s (x, k) = 0

variable {sb} {s}

theorem mem_wanted (empty : slots sb s (x, k) = 0) (lo : off / bsize ≤ bn)
    (up : bn * bsize < off + n) (new : mapSlots bn k) : k ∈ wanted sb s x off n := by
  rw [wanted, mem_filter, mem_union]
  refine ⟨?_, empty⟩
  rcases new with rfl | ⟨rfl, ge⟩
  · refine .inl (mem_image_of_mem _ (mem_Ico.mpr ⟨lo, ?_⟩))
    simp only [bsize] at *
    omega
  · right
    rw [if_pos (lt_of_le_of_lt (Nat.mul_le_mul_right bsize ge) up)]
    exact mem_singleton_self _

theorem indirect_filled (a : Alive sb s x) (ge : ndirect ≤ bn)
    (full : slots sb s (x, dataSlot bn) ≠ 0) : slots sb s (x, ndirect) ≠ 0 := fun none => by
  rw [dataSlot_indirect (by omega)] at full
  exact full (slots_no_indirect a none _)

theorem wanted_eq_empty (a : Alive sb s x)
    (filled : ∀ bn, bn * bsize < off + n → slots sb s (x, dataSlot bn) ≠ 0) :
    wanted sb s x off n = ∅ := by
  refine filter_eq_empty_iff.mpr fun k mem empty => ?_
  rcases mem_union.mp mem with data | ind
  · obtain ⟨bn, between, rfl⟩ := mem_image.mp data
    refine filled bn ?_ empty
    have := (mem_Ico.mp between).2
    simp only [bsize] at *
    omega
  · split at ind
    · rename_i far
      rw [mem_singleton.mp ind] at empty
      exact indirect_filled a le_rfl (filled ndirect far) empty
    · exact absurd ind (notMem_empty k)

/-- A write that finds the disk full leaves a slot empty that it wanted, and has put the free blocks
in the others. -/
theorem Written.enough (W : Written sb h i src off n tot p s s') (B : Base sb h none s)
    (readable : ∀ k, k < n → src k ≠ none)
    (space : (wanted sb s (s.itable i).inum off n).card ≤ (freeBlocks sb s).card) : tot = n := by
  cases W.ended with
  | done all _ => exact all
  | fault lt unreadable _ _ => exact absurd unreadable (readable _ lt)
  | full lt _ slot used =>
    exfalso
    set x := (s.itable i).inum with hx
    set k0 := dataSlot ((off + tot) / bsize) with hk0
    have empty : Fs.slots sb s (x, k0) = 0 := by
      by_contra ne
      exact ne ((W.slots _ ne).symm.trans slot)
    have mem : k0 ∈ wanted sb s x off n := by
      refine mem_wanted empty (Nat.div_le_div_right (Nat.le_add_right off tot)) ?_ (.inl rfl)
      have := Nat.div_mul_le_self (off + tot) bsize
      omega
    have cover : freeBlocks sb s ⊆
        ((wanted sb s x off n).erase k0).image fun k => Fs.slots sb s' (x, k) := by
      intro b hb
      obtain ⟨ub, free⟩ := mem_filter.mp hb
      rw [mem_range] at ub
      have lb : sb.nmeta ≤ b := by
        by_contra lt
        rw [B.blocks.meta_used b (by omega)] at free
        cases free
      have pos : b ≠ 0 := fun zero => by
        have : 0 < sb.nmeta := Superblock.nmeta_pos
        omega
      -- the block is now in a slot, and was in none
      obtain ⟨⟨y, k⟩, own⟩ := W.base.blocks.owned.owner b lb ub (used b ub)
      have before : Fs.slots sb s (y, k) ≠ b := fun eq => by
        have := B.blocks.owned.inUse (y, k) (by rwa [eq])
        rw [eq, free] at this
        cases this
      have same : y = x := by
        by_contra ne
        exact before ((slots_of_others W.others ne).symm.trans own)
      subst same
      have was : Fs.slots sb s (x, k) = 0 := by
        by_contra ne
        exact before ((W.slots k ne).symm.trans own)
      obtain ⟨bn, lo, up, new⟩ := W.touched k (by rw [own]; exact fun eq => before eq.symm)
      refine mem_image.mpr ⟨k, mem_erase.mpr ⟨?_, mem_wanted was lo up new⟩, own⟩
      rintro rfl
      exact pos (own.symm.trans slot)
    have count := (card_le_card cover).trans card_image_le
    rw [card_erase_of_mem mem] at count
    have := card_pos.mpr ⟨k0, mem⟩
    omega

theorem Written.fills (W : Written sb h i src off n n 0 s s') (B : Base sb h none s)
    (a : Alive sb s (s.itable i).inum)
    (inside : off ≤ (Fs.node sb s (s.itable i).inum).size.toNat)
    (mem : k ∈ wanted sb s (s.itable i).inum off n) :
    Fs.slots sb s' ((s.itable i).inum, k) ≠ 0 := by
  obtain ⟨mem, empty⟩ := mem_filter.mp mem
  have old : ∀ bn, bn * bsize < off → Fs.slots sb s ((s.itable i).inum, dataSlot bn) ≠ 0 :=
    fun bn lt => (B.blocks.slot_filled a (lt_of_lt_of_le lt inside)).2
  have new : ∀ bn, bn * bsize < off + n → Fs.slots sb s' ((s.itable i).inum, dataSlot bn) ≠ 0 := by
    intro bn lt
    by_cases before : bn * bsize < off
    · rw [W.slots _ (old bn before)]
      exact old bn before
    · have := W.present (bn * bsize) (by omega) (by omega)
      rwa [Nat.mul_div_cancel _ (by decide)] at this
  rcases mem_union.mp mem with data | ind
  · obtain ⟨bn, range, rfl⟩ := mem_image.mp data
    refine new bn ?_
    have := (mem_Ico.mp range).2
    simp only [bsize] at *
    omega
  · split at ind
    · rename_i far
      rw [mem_singleton.mp ind]
      have a' : Alive sb s' (s.itable i).inum := ⟨a.1, by rw [W.node]; exact a.2⟩
      exact indirect_filled a' le_rfl (new ndirect far)
    · exact absurd ind (notMem_empty k)

theorem Written.space (W : Written sb h i src off n n 0 s s') (B : Base sb h none s)
    (a : Alive sb s (s.itable i).inum)
    (inside : off ≤ (Fs.node sb s (s.itable i).inum).size.toNat) :
    (wanted sb s (s.itable i).inum off n).card ≤ (freeBlocks sb s).card := by
  refine card_le_card_of_injOn (fun k => Fs.slots sb s' ((s.itable i).inum, k))
    (fun k mem => ?_) fun k mem l _ eq => ?_
  · have full := W.fills B a inside mem
    obtain ⟨lb, ub⟩ := W.base.blocks.owned.bounds _ full
    have empty := (mem_filter.mp mem).2
    refine mem_filter.mpr ⟨mem_range.mpr ub, Bool.eq_false_iff.mpr fun used => ?_⟩
    -- a block in use was in a slot, and is in the same slot now
    obtain ⟨⟨y, l⟩, own⟩ := B.blocks.owned.owner _ lb ub used
    have kept : Fs.slots sb s' (y, l) = Fs.slots sb s (y, l) := by
      by_cases same : y = (s.itable i).inum
      · subst same
        exact W.slots l (by rwa [own])
      · exact slots_of_others W.others same
    have eq := W.base.blocks.owned.inj _ _ full (own.symm.trans kept.symm)
    rw [← eq, empty] at own
    exact full own.symm
  · have := W.base.blocks.owned.inj _ _ (W.fills B a inside mem) eq
    exact congrArg Prod.snd this

end Space

section Contents

theorem readi_outside {off n : UInt32}
    (out : (s.din i).size.toNat < off.toNat ∨ 2 ^ 32 ≤ off.toNat + n.toNat)
    (copyout : Nat → Nat → Bool) : readi sb i copyout off n s = .ok ((0, []), s) := by
  have add := UInt32.toNat_add off n
  have hn := n.toNat_lt
  have test : off > (s.din i).size ∨ off + n < off := by
    simp only [gt_iff_lt, UInt32.lt_iff_toNat_lt, add]
    omega
  have run : readi sb i copyout off n s = (if off > (s.din i).size ∨ off + n < off then
    (pure (0, []) : M (Int × List UInt8)) else _) s := rfl
  rw [run, if_pos test]
  rfl

theorem writei_outside {off n : UInt32}
    (out : (off > (s.din i).size ∨ off + n < off) ∨ (off + n).toNat > maxFile * bsize) :
    writei sb i src off n s = .ok (-1, s) := by
  have run : writei sb i src off n s = (if off > (s.din i).size ∨ off + n < off then
    (pure (-1) : M Int) else if (off + n).toNat > maxFile * bsize then pure (-1) else _) s := rfl
  rw [run]
  by_cases first : off > (s.din i).size ∨ off + n < off
  · rw [if_pos first]
    rfl
  · rw [if_neg first, if_pos (out.resolve_left first)]
    rfl

/-- `readi` returns the bytes of the file from `off` on, up to its end; `writei` replaces the bytes
from `off` on, up to the number that it returns, which is `n` when there are blocks enough. -/
theorem file_contents (B : Base sb h none s) (hi : 0 < h i) (v : (s.itable i).valid = true) :
    (∀ off n : UInt32, off.toNat ≤ (s.din i).size.toNat → off.toNat + n.toNat < 2 ^ 32 →
      readi sb i (fun _ _ => true) off n s =
        .ok ((((min n.toNat ((s.din i).size.toNat - off.toNat) : Nat) : Int),
          contents sb s (s.itable i).inum off.toNat
            (min n.toNat ((s.din i).size.toNat - off.toNat))), s)) ∧
    (∀ off n : UInt32, (s.din i).size.toNat < off.toNat ∨ 2 ^ 32 ≤ off.toNat + n.toNat →
      readi sb i (fun _ _ => true) off n s = .ok ((0, []), s)) ∧
    ∀ (src : Nat → Option UInt8) (off n : UInt32), (∀ k, k < n.toNat → src k ≠ none) →
      off.toNat ≤ (s.din i).size.toNat → off.toNat + n.toNat < 2 ^ 32 →
      off.toNat + n.toNat ≤ maxFile * bsize →
      ∃ (r : Nat) (s' : State), writei sb i src off n s = .ok ((r : Int), s') ∧ r ≤ n.toNat ∧
        ((wanted sb s (s.itable i).inum off.toNat n.toNat).card ≤ (freeBlocks sb s).card →
          r = n.toNat) ∧
        (r < n.toNat → freeBlocks sb s' = ∅) ∧
        Base sb h none s' ∧
        (s'.din i).size.toNat = max (s.din i).size.toNat (off.toNat + r) ∧
        (∀ o, o < (s'.din i).size.toNat → fileByte sb s' (s.itable i).inum o =
          if off.toNat ≤ o ∧ o < off.toNat + r then (src (o - off.toNat)).getD 0
          else fileByte sb s (s.itable i).inum o) ∧
        ∀ y, Alive sb s y → y ≠ (s.itable i).inum → node sb s' y = node sb s y ∧
          ∀ o, o < (node sb s y).size.toNat → fileByte sb s' y o = fileByte sb s y o := by
  refine ⟨fun off n inside nowrap => ?_, fun off n out => readi_outside out _,
    fun src off n readable inside nowrap fits => ?_⟩
  · have run : wp (readi sb i (fun _ _ => true) off n) (fun _ => False) (fun r t =>
        r = (((min n.toNat ((s.din i).size.toNat - off.toNat) : Nat) : Int),
          contents sb s (s.itable i).inum off.toNat
            (min n.toNat ((s.din i).size.toNat - off.toNat))) ∧ t = s) s :=
      wp_readi_contents B.table hi v (B.filled hi v) inside nowrap fun k hk => by
        subst hk
        exact ⟨rfl, rfl⟩
    obtain ⟨r, t, ok, rfl, rfl⟩ := run.exists_ok
    exact ok
  · have run : wp (writei sb i src off n) (fun _ => False) (fun r s' => ∃ tot p : Nat,
        r = tot ∧ Written sb h i src off.toNat n.toNat tot p s s') s :=
      wp_writei_placed B hi v src inside fits fun tot p s' W => ⟨tot, p, rfl, W⟩
    obtain ⟨r, s', ok, tot, p, rfl, W⟩ := run.exists_ok
    have le := W.le
    have none : p = 0 := by
      cases W.ended with
      | done _ none => exact none
      | full _ none _ _ => exact none
      | fault lt unreadable _ _ => exact absurd unreadable (readable _ lt)
    have node₀ := B.table.node_valid hi v
    have node' := W.base.table.node_valid hi W.entry.2
    rw [W.entry.1] at node'
    have size : (s'.din i).size.toNat = max (s.din i).size.toNat (off.toNat + tot) := by
      rw [← node', ← node₀]
      exact W.size
    refine ⟨tot, s', ok, by omega, W.enough B readable, fun short => ?_, W.base, size,
      fun o lt => ?_, fun y a ne => ⟨(W.others y a.1 ne).node, fun o lt => ?_⟩⟩
    · cases W.ended with
      | done all _ => omega
      | full _ _ _ used =>
        refine filter_eq_empty_iff.mpr fun b ub => ?_
        rw [used b (mem_range.mp ub)]
        exact Bool.noConfusion
      | fault lt unreadable _ _ => exact absurd unreadable (readable _ lt)
    · subst none
      by_cases new : off.toNat ≤ o ∧ o < off.toNat + tot
      · rw [if_pos new, W.placed o new.1 new.2]
      · rw [if_neg new, W.kept o new (by rw [node₀]; omega)]
    · exact (W.others y a.1 ne).fileByte a (B.blocks.slot_filled a
        (lt_of_le_of_lt (Nat.div_mul_le_self o bsize) lt)).2

/-- The first process has locked the root directory of the empty file system. -/
abbrev lockedRoot : State := lockedSmall 0 1 0

theorem lockedRoot_low : Low smallFs (Function.update (startRefs 1) 0 1) none lockedRoot :=
  lockedSmall_low (small_low (by decide) (by decide) (by decide +kernel)) (by decide)
    (by decide +kernel)

theorem file_contents_root : ∃ s', writei smallFs 0 (fun _ => some 7) 32 2 lockedRoot = .ok (2, s') ∧
    (s'.din 0).size.toNat = 34 ∧ fileByte smallFs s' rootino 33 = 7 := by
  have room : (wanted smallFs lockedRoot rootino 32 2).card ≤ (freeBlocks smallFs lockedRoot).card := by
    decide +kernel
  obtain ⟨r, s', ok, -, all, -, -, size, bytes, -⟩ :=
    (file_contents lockedRoot_low.base (i := 0) (by decide) rfl).2.2 (fun _ => some 7) 32 2 nofun
      (by decide +kernel) (by decide) (by decide)
  obtain rfl : r = 2 := all room
  have now : (s'.din 0).size.toNat = 34 := by
    rw [size]
    decide +kernel
  exact ⟨s', ok, now, (bytes 33 (by omega)).trans (if_pos (by decide))⟩

/-- The byte at `o`, as `readi` to the kernel's memory returns it. -/
def byteRead (sb : Superblock) (i : Slot) (o : UInt32) (s : State) : Except Stop (Int × List UInt8) :=
  (readi sb i (fun _ _ => true) o 1 s).map Prod.fst

theorem Base.byteRead (B : Base sb h none s) (hi : 0 < h i) (v : (s.itable i).valid = true)
    (lt : o.toNat < (s.din i).size.toNat) :
    byteRead sb i o s = .ok (1, [fileByte sb s (s.itable i).inum o.toNat]) := by
  have le := B.blocks.size_le (B.table.alive hi v)
  rw [B.table.node_valid hi v] at le
  simp only [maxFile, ndirect, nindirect, bsize] at le
  have one : (1 : UInt32).toNat = 1 := rfl
  have run := (file_contents B hi v).1 o 1 (by omega) (by omega)
  rw [one, min_eq_left (by omega)] at run
  rw [Fs.byteRead, run]
  rfl

/-- What is copied before the copy fails, to the block where it fails, is in the file already or goes
behind its end. -/
def Harmless (sb : Superblock) (i : Slot) (src : Nat → Option UInt8) (off n : Nat) (s : State) :
    Prop :=
  ∀ k, k < n → src k = none → (∀ l, l < k → src l ≠ none) → ∀ o, off ≤ o → o < off + k →
    o / bsize = (off + k) / bsize → o < (s.din i).size.toNat →
      src (o - off) = some (fileByte sb s (s.itable i).inum o)

theorem Written.harmless (W : Written sb h i src off n tot p s s') (B : Base sb h none s)
    (hi : 0 < h i) (v : (s.itable i).valid = true) :
    (∀ o, o < (s.din i).size.toNat → ¬(off ≤ o ∧ o < off + tot) →
      fileByte sb s' (s.itable i).inum o = fileByte sb s (s.itable i).inum o) ↔
    Harmless sb i src off n s := by
  have node := B.table.node_valid hi v
  have ends := W.ended
  constructor
  · intro same k lt unreadable first o lo up block inside
    have readable : src (o - off) ≠ none := first _ (by omega)
    have reached : tot + p ≤ k := by
      by_contra before
      exact W.readable k (by omega) unreadable
    cases ends with
    | done all none => omega
    | full _ _ slot _ =>
      -- the file has its block at `off + tot`, if it reaches `o`
      have start : (off + tot) / bsize * bsize ≤ o := by
        simp only [bsize] at *
        omega
      have inside : (off + tot) / bsize * bsize < (s.din i).size.toNat := by omega
      rw [← node] at inside
      have filled := (B.blocks.slot_filled (B.table.alive hi v) inside).2
      exact absurd slot (by rwa [W.slots _ filled])
    | fault _ stop start _ =>
      obtain rfl : k = tot + p := by
        by_contra ne
        exact first (tot + p) (by omega) stop
      have placed := W.placed o lo (by omega)
      rw [same o inside (by simp only [bsize] at *; omega)] at placed
      rw [placed]
      cases byte : src (o - off) with
      | none => exact absurd byte readable
      | some b => rfl
  · intro harmless o inside out
    by_cases torn : off ≤ o ∧ o < off + (tot + p)
    · cases ends with
      | done | full => omega
      | fault lt stop start block =>
        have old := harmless (tot + p) lt stop W.readable o torn.1 torn.2
          (by simp only [bsize] at *; omega) inside
        rw [W.placed o torn.1 torn.2, old, Option.getD_some]
    · exact W.kept o torn (by rwa [node])

/-- A write changes no byte outside of those that it reports if and only if it is refused as too
large, or the bytes that it copies before the copy fails change nothing in the file. -/
theorem writei_reports (B : Base sb h none s) (hi : 0 < h i) (v : (s.itable i).valid = true)
    (src : Nat → Option UInt8) (off n : UInt32) :
    ∃ (r : Int) (s' : State), writei sb i src off n s = .ok (r, s') ∧
      ((∀ o : UInt32, o.toNat < (s.din i).size.toNat →
          ¬(off.toNat ≤ o.toNat ∧ (o.toNat : Int) < off.toNat + r) →
          ∃ b, byteRead sb i o s = .ok (1, [b]) ∧ byteRead sb i o s' = .ok (1, [b])) ↔
        maxFile * bsize < off.toNat + n.toNat ∨ Harmless sb i src off.toNat n.toNat s) := by
  have add := UInt32.toNat_add off n
  have hn := n.toNat_lt
  by_cases out : (off > (s.din i).size ∨ off + n < off) ∨ (off + n).toNat > maxFile * bsize
  · refine ⟨-1, s, writei_outside out, iff_of_true (fun o lt _ => ?_) ?_⟩
    · exact ⟨_, B.byteRead hi v lt, B.byteRead hi v lt⟩
    · simp only [gt_iff_lt, lt_iff_toNat_lt] at out
      by_cases behind : (s.din i).size.toNat < off.toNat
      · exact .inr fun k _ _ _ o lo _ _ lt => absurd lt (by omega)
      · simp only [maxFile, ndirect, nindirect, bsize] at *
        exact .inl (by omega)
  obtain ⟨outside, large⟩ := not_or.mp out
  simp only [not_or, gt_iff_lt, lt_iff_toNat_lt, not_lt] at outside large
  have run : wp (writei sb i src off n) (fun _ => False) (fun r s' => ∃ tot p : Nat,
      r = tot ∧ Written sb h i src off.toNat n.toNat tot p s s') s :=
    wp_writei_placed B hi v src outside.1 (by omega) fun tot p s' W => ⟨tot, p, rfl, W⟩
  obtain ⟨r, s', ok, tot, p, rfl, W⟩ := run.exists_ok
  refine ⟨tot, s', ok, ?_⟩
  have size := W.size
  rw [← W.entry.1, W.base.table.node_valid hi W.entry.2, W.entry.1, B.table.node_valid hi v] at size
  rw [or_iff_right (by omega), ← W.harmless B hi v]
  have width := (s.din i).size.toNat_lt
  constructor
  · intro same o lt out
    have small : (UInt32.ofNat o).toNat = o := toNat_ofNat_of_lt' (show o < 2 ^ 32 by omega)
    obtain ⟨b, before, after⟩ := same (UInt32.ofNat o) (by rwa [small])
      (by rw [small]; omega)
    rw [B.byteRead hi v (by rwa [small]), small] at before
    rw [W.base.byteRead hi W.entry.2 (by rw [small]; omega), small, W.entry.1, ← before] at after
    simpa using after
  · intro same o lt out
    refine ⟨_, B.byteRead hi v lt, ?_⟩
    rw [W.base.byteRead hi W.entry.2 (by omega), W.entry.1, same o.toNat lt (by omega)]

theorem writei_reports_unmapped : ∃ (r : Int) (s' : State) (b : UInt8),
    writei smallFs 0 (fun _ => none) 0 2 lockedRoot = .ok (r, s') ∧
      byteRead smallFs 0 3 lockedRoot = .ok (1, [b]) ∧ byteRead smallFs 0 3 s' = .ok (1, [b]) := by
  obtain ⟨r, s', ok, kept⟩ := writei_reports lockedRoot_low.base (i := 0) (by decide) rfl
    (fun _ => none) 0 2
  have none : r = 0 := by
    have run : (writei smallFs 0 (fun _ => none) 0 2 lockedRoot).toOption.map Prod.fst = some 0 := by
      decide +kernel
    rw [ok] at run
    exact Option.some.inj run
  have harmless : Harmless smallFs 0 (fun _ => Option.none) 0 2 lockedRoot := by
    intro k _ _ first o _ lt
    exact absurd rfl (first 0 (by omega))
  obtain ⟨b, before, after⟩ := kept.mpr (.inr harmless) 3 (by decide +kernel)
    (by rw [none]; decide)
  exact ⟨r, s', b, ok, before, after⟩

/-- The bytes of a user's memory from the address `va` on, by the pages that are mapped. -/
def userSrc (pages : Nat → Option (Fin 4096 → UInt8)) (va k : Nat) : Option UInt8 :=
  (pages ((va + k) / 4096)).map fun page => page (Fin.ofNat 4096 (va + k))

def onePage (page : Nat) : Option (Fin 4096 → UInt8) := if page = 0 then some fun _ => 88 else none

/-- The bytes `ab` are written to the empty file of entry 1, and then two bytes of which the second
is not in the user's memory: the results, and the first byte before and after. -/
def tornWrite : Option (Int × (Int × List UInt8) × Int × (Int × List UInt8)) := do
  let (r₁, s₁) ←
    (writei smallFs 1 (fun k => some (97 + UInt8.ofNat k)) 0 2 (lockedSmall 1 2 1)).toOption
  let before ← (byteRead smallFs 1 0 s₁).toOption
  let (r₂, s₂) ← (writei smallFs 1 (userSrc onePage 4095) 0 2 s₁).toOption
  let after ← (byteRead smallFs 1 0 s₂).toOption
  return (r₁, before, r₂, after)

/-- A write that reports no byte has changed one: the page of the second byte is not mapped. -/
theorem writei_torn : Low smallFs (Function.update (startRefs 2) 1 1) none (lockedSmall 1 2 1) ∧
    tornWrite = some (2, (1, [97]), 0, (1, [88])) :=
  ⟨lockedSmall_low (small_low (by decide) (by decide) (by decide +kernel)) (by decide)
    (by decide +kernel), by decide +kernel⟩

end Contents

end Xv6.Fs
