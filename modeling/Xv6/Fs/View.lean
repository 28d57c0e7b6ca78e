import Xv6.Fs.Syscalls
import Xv6.Lib.Owner
import Xv6.Lib.Wp

/-! What the kernel's state says about the file system, and the invariants of the inode table and of
the blocks. -/

namespace Xv6.Fs

open Function

/-- Entry `i` of the table is in use for inode `x` and holds its copy. -/
def State.Cached (s : State) (i : Slot) (x : Nat) : Prop :=
  0 < (s.itable i).ref ∧ (s.itable i).valid = true ∧ (s.itable i).inum = x

instance (s : State) (i : Slot) (x : Nat) : Decidable (s.Cached i x) :=
  inferInstanceAs (Decidable (_ ∧ _ ∧ _))

section View

variable (sb : Superblock) (s : State)

/-- The inode `x` as the kernel sees it: the copy in the table if there is one. -/
def node (x : Nat) : Dinode :=
  match (List.finRange ninode).find? fun i => decide (s.Cached i x) with
  | some i => s.din i
  | none => sb.inode s.disk x

def Alive (x : Nat) : Prop := x < sb.ninodes ∧ (node sb s x).type ≠ 0

instance (x : Nat) : Decidable (Alive sb s x) := inferInstanceAs (Decidable (_ ∧ _))

/-- The number of slots of an inode: its addresses, and the entries of its indirect block. -/
abbrev nslots : Nat := ndirect + 1 + nindirect

/-- The block number in slot `k` of `din`; 0 where there is none. -/
def addrAt (d : Disk) (din : Dinode) (k : Nat) : Nat :=
  if h : k < ndirect + 1 then (din.addrs ⟨k, h⟩).toNat
  else if din.addrs (Fin.last ndirect) ≠ 0 ∧ k < nslots then
    (Bytes.get32 (d (din.addrs (Fin.last ndirect)).toNat) (4 * (k - (ndirect + 1)))).toNat
  else 0

/-- The slot of block `bn` of a file: the slot of the indirect block itself is left out. -/
def dataSlot (bn : Nat) : Nat := if bn < ndirect then bn else bn + 1

def slots (p : Nat × Nat) : Nat :=
  if Alive sb s p.1 then addrAt s.disk (node sb s p.1) p.2 else 0

def entryAt (x k : Nat) : List UInt8 :=
  slice (s.disk (addrAt s.disk (node sb s x) (dataSlot (k / 64)))) (16 * (k % 64)) 16

end View

/-- The inode table: `h` counts the references to each entry, and the copy of the entry `dirty` may
differ from the disk inode. -/
structure Table (sb : Superblock) (h : Slot → Nat) (dirty : Option Slot) (s : State) : Prop where
  ref_eq : ∀ i, (s.itable i).ref = h i
  dev_eq : ∀ i, 0 < h i → (s.itable i).dev = rootdev
  inum_lt : ∀ i, 0 < h i → (s.itable i).inum < sb.ninodes
  unique : ∀ i j, 0 < h i → 0 < h j → (s.itable i).inum = (s.itable j).inum → i = j
  typed : ∀ i, 0 < h i → (s.itable i).valid = true → (s.din i).type ≠ 0
  clean : ∀ i, 0 < h i → (s.itable i).valid = true → dirty ≠ some i →
    s.din i = sb.inode s.disk (s.itable i).inum

/-- Each block in use is in exactly one slot, no file has a hole below its size, and entries are
within the inodes. -/
structure Volume (sb : Superblock) (s : State) : Prop where
  owned : Owner.Owned (slots sb s) (sb.bit s.disk) sb.nmeta sb.size
  meta_used : ∀ b, b < sb.nmeta → sb.bit s.disk b = true
  filled : ∀ x bn, Alive sb s x → bn * bsize < (node sb s x).size.toNat →
    bn < maxFile ∧ addrAt s.disk (node sb s x) (dataSlot bn) ≠ 0
  ranged : ∀ x k, Alive sb s x → (node sb s x).type = tDir →
    16 * (k + 1) ≤ (node sb s x).size.toNat → deInum (entryAt sb s x k) < sb.ninodes

/-- The blocks alone: the files may hold anything, also the directories. -/
structure Blocks (sb : Superblock) (s : State) : Prop where
  owned : Owner.Owned (slots sb s) (sb.bit s.disk) sb.nmeta sb.size
  meta_used : ∀ b, b < sb.nmeta → sb.bit s.disk b = true
  filled : ∀ x bn, Alive sb s x → bn * bsize < (node sb s x).size.toNat →
    bn < maxFile ∧ addrAt s.disk (node sb s x) (dataSlot bn) ≠ 0

/-- The inode table and the blocks. -/
structure Base (sb : Superblock) (h : Slot → Nat) (dirty : Option Slot) (s : State) : Prop where
  table : Table sb h dirty s
  blocks : Blocks sb s

/-- The invariant at the boundaries of the functions of `kernel/fs.c`. -/
structure Low (sb : Superblock) (h : Slot → Nat) (dirty : Option Slot) (s : State) : Prop where
  table : Table sb h dirty s
  volume : Volume sb s

/-- The functions of `kernel/fs.c` leave files and processes alone, and an entry with references in
`h` keeps its inode, its copy and its type. -/
structure Frame (sb : Superblock) (h : Slot → Nat) (s s' : State) : Prop where
  ftable : s'.ftable = s.ftable
  cwd : s'.cwd = s.cwd
  cur : s'.cur = s.cur
  inum : ∀ i, 0 < h i → (s'.itable i).inum = (s.itable i).inum
  valid : ∀ i, 0 < h i → (s.itable i).valid = true → (s'.itable i).valid = true
  type : ∀ i, 0 < h i → Alive sb s (s.itable i).inum →
    (node sb s' (s.itable i).inum).type = (node sb s (s.itable i).inum).type

/-! The file system as a graph. -/

/-- An allocated inode as a node: the entries of a directory, by index, with their names. -/
structure Node where
  type : Int16
  nlink : Int16
  ents : List (Option (Nat × Name))
  deriving DecidableEq

/-- A directory entry as an edge; `none` for an empty one. -/
def decode (de : List UInt8) : Option (Nat × Name) :=
  if deInum de = 0 then none else some (deInum de, cstr (deName de))

/-- The entries with `e` at index `k`, which is at most the end. -/
def setEnt (ents : List (Option (Nat × Name))) (k : Nat) (e : Option (Nat × Name)) :
    List (Option (Nat × Name)) :=
  if k < ents.length then ents.set k e else ents ++ [e]

def entries (sb : Superblock) (s : State) (x : Nat) (din : Dinode) : List (Option (Nat × Name)) :=
  if din.type = tDir then (List.range (din.size.toNat / 16)).map fun k => decode (entryAt sb s x k)
  else []

def graph (sb : Superblock) (s : State) (x : Nat) : Option Node :=
  if Alive sb s x then
    some ⟨(node sb s x).type, (node sb s x).nlink, entries sb s x (node sb s x)⟩
  else none

variable {sb : Superblock} {h : Slot → Nat} {dirty : Option Slot} {s s' s'' : State} {i j : Slot}
  {x y k : Nat}

section Table

theorem node_of_none (none : ∀ i, ¬s.Cached i x) : node sb s x = sb.inode s.disk x := by
  unfold node
  rw [List.find?_eq_none.mpr fun i _ => by simpa using none i]

theorem Table.ref_pos (T : Table sb h dirty s) : 0 < (s.itable i).ref ↔ 0 < h i := by
  rw [T.ref_eq]
  omega

theorem Table.cached_iff (T : Table sb h dirty s) :
    s.Cached i x ↔ 0 < h i ∧ (s.itable i).valid = true ∧ (s.itable i).inum = x := by
  rw [State.Cached, T.ref_pos]

theorem Table.node_cached (T : Table sb h dirty s) (c : s.Cached i x) : node sb s x = s.din i := by
  unfold node
  split
  · rename_i j hj
    have cj : s.Cached j x := by simpa using List.find?_some hj
    rw [T.cached_iff] at c cj
    rw [T.unique i j c.1 cj.1 (c.2.2.trans cj.2.2.symm)]
  · rename_i hj
    exact absurd c (by simpa using List.find?_eq_none.mp hj i (List.mem_finRange i))

theorem Table.node_valid (T : Table sb h dirty s) (hi : 0 < h i) (v : (s.itable i).valid = true) :
    node sb s (s.itable i).inum = s.din i :=
  T.node_cached (T.cached_iff.mpr ⟨hi, v, rfl⟩)

theorem Table.node_disk (T : Table sb h none s) (x : Nat) : node sb s x = sb.inode s.disk x := by
  by_cases c : ∃ i, s.Cached i x
  · obtain ⟨i, c⟩ := c
    rw [T.node_cached c]
    obtain ⟨hi, v, e⟩ := T.cached_iff.mp c
    rw [T.clean i hi v nofun, e]
  · exact node_of_none fun i ci => c ⟨i, ci⟩

theorem Table.alive (T : Table sb h dirty s) (hi : 0 < h i) (v : (s.itable i).valid = true) :
    Alive sb s (s.itable i).inum :=
  ⟨T.inum_lt i hi, by rw [T.node_valid hi v]; exact T.typed i hi v⟩

theorem Table.graph_entry (T : Table sb h dirty s) (hi : 0 < h i)
    (v : (s.itable i).valid = true) : graph sb s (s.itable i).inum =
      some ⟨(s.din i).type, (s.din i).nlink, entries sb s (s.itable i).inum (s.din i)⟩ := by
  rw [graph, if_pos (T.alive hi v), T.node_valid hi v]

theorem Table.weaken (T : Table sb h none s) : Table sb h dirty s :=
  { T with clean := fun i hi v _ => T.clean i hi v nofun }

end Table

section Frame

theorem Frame.refl : Frame sb h s s :=
  ⟨rfl, rfl, rfl, fun _ _ => rfl, fun _ _ => id, fun _ _ _ => rfl⟩

theorem Frame.alive (F : Frame sb h s s') (hi : 0 < h i) (a : Alive sb s (s.itable i).inum) :
    Alive sb s' (s.itable i).inum :=
  ⟨a.1, by rw [F.type i hi a]; exact a.2⟩

theorem Frame.trans (F : Frame sb h s s') (F' : Frame sb h s' s'') : Frame sb h s s'' where
  ftable := F'.ftable.trans F.ftable
  cwd := F'.cwd.trans F.cwd
  cur := F'.cur.trans F.cur
  inum i hi := (F'.inum i hi).trans (F.inum i hi)
  valid i hi v := F'.valid i hi (F.valid i hi v)
  type i hi a := by
    have e := F'.type i hi
    rw [F.inum i hi] at e
    rw [e (F.alive hi a), F.type i hi a]

theorem Frame.mono (F : Frame sb h s s') (le : ∀ i, 0 < h' i → 0 < h i) : Frame sb h' s s' where
  ftable := F.ftable
  cwd := F.cwd
  cur := F.cur
  inum i hi := F.inum i (le i hi)
  valid i hi := F.valid i (le i hi)
  type i hi := F.type i (le i hi)

end Frame

section Files

theorem slots_of_alive (a : Alive sb s x) : slots sb s (x, k) = addrAt s.disk (node sb s x) k :=
  if_pos a

theorem slots_of_dead (a : ¬Alive sb s x) : slots sb s (x, k) = 0 := if_neg a

variable {din : Dinode}

theorem addrAt_direct (k : Fin (ndirect + 1)) :
    addrAt d din k = (din.addrs k).toNat := dif_pos k.isLt

theorem slots_ind (a : Alive sb s x) :
    slots sb s (x, ndirect) = ((node sb s x).addrs (Fin.last ndirect)).toNat :=
  (slots_of_alive a).trans (addrAt_direct (Fin.last ndirect))

theorem slots_ind_ne (a : Alive sb s x) (ind : (node sb s x).addrs (Fin.last ndirect) ≠ 0) :
    slots sb s (x, ndirect) ≠ 0 := by
  rw [slots_ind a]
  simpa [← UInt32.toNat_inj] using ind

theorem addrAt_indirect (lo : ndirect < k) (hi : k < nslots)
    (ind : din.addrs (Fin.last ndirect) ≠ 0) : addrAt d din k =
      (Bytes.get32 (d (din.addrs (Fin.last ndirect)).toNat) (4 * (k - (ndirect + 1)))).toNat := by
  rw [addrAt, dif_neg (by omega), if_pos ⟨ind, hi⟩]

theorem addrAt_congr (ind : din.addrs (Fin.last ndirect) ≠ 0 →
      d' (din.addrs (Fin.last ndirect)).toNat = d (din.addrs (Fin.last ndirect)).toNat) :
    addrAt d' din k = addrAt d din k := by
  unfold addrAt
  split
  · rfl
  · split
    · rw [ind (by tauto)]
    · rfl

/-- Nothing of the file `x` changes. -/
structure SameFile (sb : Superblock) (s s' : State) (x : Nat) : Prop where
  node : node sb s' x = node sb s x
  blocks : Alive sb s x → ∀ k, slots sb s (x, k) ≠ 0 →
    s'.disk (slots sb s (x, k)) = s.disk (slots sb s (x, k))

namespace SameFile

section

variable (S : SameFile sb s s' x)

include S

theorem alive : Alive sb s' x ↔ Alive sb s x := by
  rw [Alive, Alive, S.node]

theorem addr (a : Alive sb s x) :
    addrAt s'.disk (Fs.node sb s' x) k = addrAt s.disk (Fs.node sb s x) k := by
  rw [S.node]
  refine addrAt_congr fun ind => ?_
  rw [← slots_ind a]
  exact S.blocks a ndirect (slots_ind_ne a ind)

theorem slots : slots sb s' (x, k) = slots sb s (x, k) := by
  by_cases a : Alive sb s x
  · rw [slots_of_alive a, slots_of_alive (S.alive.mpr a), S.addr a]
  · rw [slots_of_dead a, slots_of_dead (S.alive.not.mpr a)]

theorem trans (S' : SameFile sb s' s'' x) : SameFile sb s s'' x := by
  refine ⟨S'.node.trans S.node, fun a k hk => ?_⟩
  have e := S'.blocks (S.alive.mpr a) k (by rwa [S.slots])
  rw [S.slots] at e
  rw [e, S.blocks a k hk]

theorem entry (a : Alive sb s x) (filled : addrAt s.disk (Fs.node sb s x) (dataSlot (k / 64)) ≠ 0) :
    entryAt sb s' x k = entryAt sb s x k := by
  have b := S.blocks a (dataSlot (k / 64))
  rw [slots_of_alive a] at b
  rw [entryAt, entryAt, S.addr a, b filled]

end

end SameFile

theorem Volume.blocks (V : Volume sb s) : Blocks sb s := ⟨V.owned, V.meta_used, V.filled⟩

theorem Low.base (L : Low sb h dirty s) : Base sb h dirty s := ⟨L.table, L.volume.blocks⟩

theorem Blocks.size_le (B : Blocks sb s) (a : Alive sb s x) :
    (node sb s x).size.toNat ≤ maxFile * bsize := by
  by_contra gt
  exact absurd (B.filled x maxFile a (by omega)).1 (Nat.lt_irrefl _)

theorem Blocks.slot_filled (B : Blocks sb s) (a : Alive sb s x)
    (lt : bn * bsize < (node sb s x).size.toNat) :
    bn < maxFile ∧ slots sb s (x, dataSlot bn) ≠ 0 := by
  rw [slots_of_alive a]
  exact B.filled x bn a lt

theorem Blocks.entry_filled (B : Blocks sb s) (a : Alive sb s x)
    (hk : 16 * (k + 1) ≤ (node sb s x).size.toNat) :
    addrAt s.disk (node sb s x) (dataSlot (k / 64)) ≠ 0 :=
  (B.filled x (k / 64) a (by simp only [bsize]; omega)).2

theorem entries_congr
    (e : ∀ k, 16 * (k + 1) ≤ din.size.toNat → entryAt sb s' x k = entryAt sb s x k) :
    entries sb s' x din = entries sb s x din := by
  unfold entries
  split
  · refine List.map_congr_left fun k hk => ?_
    rw [e k (by rw [List.mem_range] at hk; omega)]
  · rfl

theorem SameFile.graph (S : SameFile sb s s' x) (V : Volume sb s) :
    graph sb s' x = graph sb s x := by
  unfold Fs.graph
  by_cases a : Alive sb s x
  · rw [if_pos a, if_pos (S.alive.mpr a), S.node,
      entries_congr fun k hk => S.entry a (V.blocks.entry_filled a hk)]
  · rw [if_neg a, if_neg (S.alive.not.mpr a)]

theorem Blocks.update (B : Blocks sb s)
    (others : ∀ y, y < sb.ninodes → y ≠ x → SameFile sb s s' y)
    (owned : Owner.Owned (slots sb s') (sb.bit s'.disk) sb.nmeta sb.size)
    (meta_used : ∀ b, b < sb.nmeta → sb.bit s'.disk b = true)
    (filled : ∀ bn, Alive sb s' x → bn * bsize < (node sb s' x).size.toNat →
      bn < maxFile ∧ addrAt s'.disk (node sb s' x) (dataSlot bn) ≠ 0) : Blocks sb s' where
  owned := owned
  meta_used := meta_used
  filled y bn a hbn := by
    by_cases yx : y = x
    · subst yx
      exact filled bn a hbn
    · have S := others y a.1 yx
      have a' := S.alive.mp a
      rw [S.addr a']
      rw [S.node] at hbn
      exact B.filled y bn a' hbn

theorem Volume.ofBlocks (V : Volume sb s) (B : Blocks sb s')
    (others : ∀ y, y < sb.ninodes → y ≠ x → SameFile sb s s' y)
    (ranged : ∀ k, Alive sb s' x → (node sb s' x).type = tDir →
      16 * (k + 1) ≤ (node sb s' x).size.toNat → deInum (entryAt sb s' x k) < sb.ninodes) :
    Volume sb s' where
  owned := B.owned
  meta_used := B.meta_used
  filled := B.filled
  ranged y k a dir hk := by
    by_cases yx : y = x
    · subst yx
      exact ranged k a dir hk
    · have S := others y a.1 yx
      have a' := S.alive.mp a
      rw [S.node] at dir hk
      rw [S.entry a' (V.blocks.entry_filled a' hk)]
      exact V.ranged y k a' dir hk

theorem slots_of_others (others : ∀ y, y < sb.ninodes → y ≠ x → SameFile sb s s' y)
    (ne : p.1 ≠ x) : slots sb s' p = slots sb s p := by
  by_cases lt : p.1 < sb.ninodes
  · exact (others p.1 lt ne).slots
  · exact (if_neg fun a => lt a.1).trans (if_neg fun a => lt a.1).symm

theorem slots_update (others : ∀ y, y < sb.ninodes → y ≠ x → SameFile sb s s' y)
    (file : ∀ k, slots sb s' (x, k) = slots sb s (x, k)) (p : Nat × Nat) :
    slots sb s' p = slots sb s p := by
  by_cases px : p.1 = x
  · obtain ⟨y, k⟩ := p
    subst px
    exact file k
  · exact slots_of_others others px

theorem Blocks.same (B : Blocks sb s) (files : ∀ y, y < sb.ninodes → SameFile sb s s' y)
    (bits : ∀ b, b < sb.size → sb.bit s'.disk b = sb.bit s.disk b) : Blocks sb s' := by
  refine B.update (x := sb.ninodes) (fun y lt _ => files y lt) ?_ ?_ ?_
  · exact B.owned.congr (fun p => slots_update (x := sb.ninodes) (fun y lt _ => files y lt)
      (fun k => (slots_of_dead fun a => Nat.lt_irrefl _ a.1).trans
        (slots_of_dead fun a => Nat.lt_irrefl _ a.1).symm) p) fun b _ ub => bits b ub
  · intro b hb
    rw [bits b (Nat.lt_of_lt_of_le hb Superblock.nmeta_le)]
    exact B.meta_used b hb
  · exact fun bn a => absurd a.1 (Nat.lt_irrefl _)

theorem Volume.same (V : Volume sb s) (files : ∀ y, y < sb.ninodes → SameFile sb s s' y)
    (bits : ∀ b, b < sb.size → sb.bit s'.disk b = sb.bit s.disk b) : Volume sb s' :=
  V.ofBlocks (x := sb.ninodes) (V.blocks.same files bits) (fun y lt _ => files y lt)
    fun _ a => absurd a.1 (Nat.lt_irrefl _)

theorem graph_of_ge (ge : ¬x < sb.ninodes) : graph sb s x = none := if_neg fun a => ge a.1

theorem graph_same (V : Volume sb s) (files : ∀ y, y < sb.ninodes → SameFile sb s s' y) :
    graph sb s' = graph sb s := by
  funext y
  by_cases lt : y < sb.ninodes
  · exact (files y lt).graph V
  · rw [graph_of_ge lt, graph_of_ge lt]

theorem graph_update (V : Volume sb s)
    (others : ∀ y, y < sb.ninodes → y ≠ x → SameFile sb s s' y) :
    graph sb s' = update (graph sb s) x (graph sb s' x) := by
  funext y
  by_cases yx : y = x
  · rw [yx, update_self]
  · rw [update_of_ne yx]
    by_cases lt : y < sb.ninodes
    · exact (others y lt yx).graph V
    · rw [graph_of_ge lt, graph_of_ge lt]

end Files

end Xv6.Fs
