import Xv6.Fs.Writers

/-! Processes that write through one `struct file` append to each other's bytes: the inode's lock
covers the offset and the write. -/

namespace Xv6.Writers

open Fs Wp Function List

/-- The bytes of a file with `bytes` laid over them from offset `off` on. -/
def overlay (off : Nat) (bytes : List UInt8) (old : Nat → UInt8) (o : Nat) : UInt8 :=
  if off ≤ o ∧ o < off + bytes.length then bytes.getD (o - off) 0 else old o

section File

variable (sb : Superblock) (h : Slot → Nat) (f : Fin nfile) (start : Fs.State)

/-- The entry, the inode, the offset and the size of the file at the start. -/
abbrev entry : Slot := (start.ftable f).ip

abbrev inum : Nat := (start.itable (entry f start)).inum

abbrev off₀ : Nat := (start.ftable f).off.toNat

abbrev size₀ : Nat := (node sb start (inum f start)).size.toNat

/-- The file is open for writing with its offset within it, and no one is in a call. -/
structure Opened : Prop where
  low : Low sb h none start
  held : 0 < h (entry f start)
  type : (start.ftable f).type = .inode
  writable : (start.ftable f).writable = true
  alive : Alive sb start (inum f start)
  file : (node sb start (inum f start)).type ≠ tDir
  unlocked : (start.itable (entry f start)).lock = none
  inside : off₀ f start ≤ size₀ sb f start

/-- From `start` on the bytes `laid` were written; `f->off` and the size count the first `n`. -/
structure Wrote (dirty : Option Slot) (n : Nat) (laid : List UInt8) (fs : Fs.State) : Prop where
  low : Low sb h dirty fs
  ip : (fs.ftable f).ip = entry f start
  writable : (fs.ftable f).writable = true
  inode : (fs.itable (entry f start)).inum = inum f start
  alive : Alive sb fs (inum f start)
  file : (node sb fs (inum f start)).type ≠ tDir
  off : (fs.ftable f).off.toNat = off₀ f start + n
  size : (node sb fs (inum f start)).size.toNat = max (size₀ sb f start) (off₀ f start + n)
  filled : ∀ o < max (size₀ sb f start) (off₀ f start + laid.length),
    slots sb fs (inum f start, dataSlot (o / bsize)) ≠ 0
  bytes : ∀ o < max (size₀ sb f start) (off₀ f start + laid.length),
    fileByte sb fs (inum f start) o =
      overlay (off₀ f start) laid (fileByte sb start (inum f start)) o

end File

variable {start : Fs.State}

theorem Opened.wrote (o : Opened sb h f start) : Wrote sb h f start none 0 [] start where
  low := o.low
  ip := rfl
  writable := o.writable
  inode := rfl
  alive := o.alive
  file := o.file
  off := rfl
  size := (max_eq_left o.inside).symm
  filled b hb := by
    have inside := o.inside
    simp only [length_nil, add_zero, max_eq_left inside] at hb
    exact (o.low.volume.blocks.slot_filled o.alive (lt_of_le_of_lt (Nat.div_mul_le_self b bsize) hb)).2
  bytes b _ := by
    rw [overlay, if_neg]
    simp only [length_nil]
    omega

theorem sameFile_of_clean (L : Low sb h none fs) (L' : Low sb h' none fs')
    (disk : fs'.disk = fs.disk) : SameFile sb fs fs' x :=
  sameFile_of_disk disk (by rw [L'.table.node_disk, L.table.node_disk, disk])

theorem Wrote.same (w : Wrote sb h f start dirty n laid fs) (low : Low sb h dirty' fs')
    (S : SameFile sb fs fs' (inum f start)) (files : fs'.ftable f = fs.ftable f)
    (inode : (fs'.itable (entry f start)).inum = (fs.itable (entry f start)).inum) :
    Wrote sb h f start dirty' n laid fs' where
  low := low
  ip := by rw [files]; exact w.ip
  writable := by rw [files]; exact w.writable
  inode := inode.trans w.inode
  alive := S.alive.mpr w.alive
  file := by rw [S.node]; exact w.file
  off := by rw [files]; exact w.off
  size := by rw [S.node]; exact w.size
  filled o ho := by rw [S.slots]; exact w.filled o ho
  bytes o ho := by rw [S.fileByte w.alive (w.filled o ho)]; exact w.bytes o ho

theorem low_of_same (L : Low sb h dirty fs) (disk : fs'.disk = fs.disk)
    (itable : fs'.itable = fs.itable) : Low sb h dirty fs' := by
  have node : ∀ y, node sb fs' y = node sb fs y := fun y => node_disk itable (by rw [disk])
  exact ⟨L.table.disk itable fun _ _ => by rw [disk],
    L.volume.same (fun y _ => sameFile_of_disk disk (node y)) fun _ _ => by rw [disk]⟩

theorem Wrote.setCur (w : Wrote sb h f start dirty n laid fs) (p : Fin nproc) :
    Wrote sb h f start dirty n laid { fs with cur := p } :=
  w.same (low_of_same w.low rfl rfl) ⟨rfl, fun _ _ _ => rfl⟩ rfl rfl

theorem Wrote.weaken (w : Wrote sb h f start none n laid fs) :
    Wrote sb h f start dirty n laid fs :=
  w.same ⟨w.low.table.weaken, w.low.volume⟩ ⟨rfl, fun _ _ _ => rfl⟩ rfl rfl

/-- The size and the offset are brought up to what was laid. -/
theorem Wrote.resize (w : Wrote sb h f start dirty n laid fs) (low : Low sb h dirty' fs')
    {size : UInt32}
    (node' : node sb fs' (inum f start) = { node sb fs (inum f start) with size := size })
    (data : ∀ k, slots sb fs (inum f start, k) ≠ 0 →
      fs'.disk (slots sb fs (inum f start, k)) = fs.disk (slots sb fs (inum f start, k)))
    (ip : (fs'.ftable f).ip = (fs.ftable f).ip)
    (writable : (fs'.ftable f).writable = (fs.ftable f).writable)
    (inode : (fs'.itable (entry f start)).inum = (fs.itable (entry f start)).inum)
    (off : (fs'.ftable f).off.toNat = off₀ f start + laid.length)
    (upto : size.toNat = max (size₀ sb f start) (off₀ f start + laid.length)) :
    Wrote sb h f start dirty' laid.length laid fs' := by
  have alive : Alive sb fs' (inum f start) := ⟨w.alive.1, by rw [node']; exact w.alive.2⟩
  have slots' : ∀ k, slots sb fs' (inum f start, k) = slots sb fs (inum f start, k) := by
    intro k
    rw [slots_of_alive alive, slots_of_alive w.alive, node']
    refine addrAt_congr fun ind => ?_
    rw [← slots_ind w.alive]
    exact data ndirect (slots_ind_ne w.alive ind)
  refine ⟨low, ip.trans w.ip, writable.trans w.writable, inode.trans w.inode, alive, ?_, off, ?_,
    fun o ho => ?_, fun o ho => ?_⟩
  · rw [node']
    exact w.file
  · rwa [node']
  · rw [slots']
    exact w.filled o ho
  · rw [fileByte_slots alive, slots', data _ (w.filled o ho), ← fileByte_slots w.alive]
    exact w.bytes o ho

section

variable (w : Wrote sb h f start none n laid fs) (held : 0 < h (entry f start))

include w held

theorem Wrote.setLock (lock : Option Pid) : Wrote sb h f start none n laid
      (fs.setInode (entry f start) { fs.itable (entry f start) with lock := lock }) := by
  have q := w.low.setLock held lock
  exact w.same q.low (sameFile_of_clean w.low q.low rfl) rfl (q.frame.inum _ held)

theorem Wrote.ilock (free : (fs.itable (entry f start)).lock = none) :
    wp (ilock sb (entry f start)) E (fun _ fs' => Wrote sb h f start none n laid fs' ∧
      (fs'.itable (entry f start)).lock = some fs.cur.val ∧
      (fs'.itable (entry f start)).valid = true) fs := by
  have ref := w.low.table.ref_eq (entry f start)
  unfold Fs.ilock acquiresleep
  simp only [wp_bind, wp_get]
  rw [if_neg (by omega)]
  simp only [wp_bind, wp_get]
  rw [if_pos free]
  simp only [wp_set]
  have locked := w.setLock held (some fs.cur.val)
  by_cases v : (fs.itable (entry f start)).valid = true
  · rw [State.setInode_same, if_pos v]
    exact ⟨locked, by rw [State.setInode_same], by rwa [State.setInode_same]⟩
  · rw [State.setInode_same, if_neg v]
    simp only [wp_bind, wp_set]
    -- the inode that is read is the one that the kernel sees
    have typed : (sb.inode fs.disk (fs.itable (entry f start)).inum).type ≠ 0 := by
      rw [w.inode, ← w.low.table.node_disk]
      exact w.alive.2
    refine wp_ite (fun dead => absurd dead typed) fun _ => ?_
    have q := locked.low.setInode
      { fs.itable (entry f start) with
        lock := some fs.cur.val, din := sb.inode fs.disk (fs.itable (entry f start)).inum,
        valid := true }
      (w.low.table.ref_eq _) (fun _ => held) (by rw [State.setInode_same])
      (by rw [State.setInode_same]) (fun _ => rfl) fun _ => ⟨rfl, typed⟩
    rw [update_eq_self] at q
    refine ⟨locked.same q.low (sameFile_of_clean locked.low q.low rfl) rfl ?_,
      by rw [State.setInode_same], by rw [State.setInode_same]⟩
    rw [State.setInode_same, State.setInode_same]

theorem Wrote.iunlock (own : (fs.itable (entry f start)).lock = some fs.cur.val) :
    wp (iunlock (entry f start)) E (fun _ fs' => Wrote sb h f start none n laid fs' ∧
      (fs'.itable (entry f start)).lock = none) fs := by
  have ref := w.low.table.ref_eq (entry f start)
  unfold Fs.iunlock
  simp only [wp_bind, wp_get]
  rw [if_neg (by rw [own]; simp only [ne_eq, not_true_eq_false, false_or]; omega)]
  refine ⟨w.setLock held none, ?_⟩
  exact congrArg Inode.lock State.setInode_same

end

section Locks

def SameLocks (s s' : Fs.State) : Prop := ∀ j, (s'.itable j).lock = (s.itable j).lock

theorem wp_balloc_locks (post : ∀ a s', s'.itable = s.itable → Q a s') : wp (balloc sb) E Q s := by
  unfold balloc
  simp only [wp_bind, wp_get]
  split
  · exact post _ _ rfl
  · exact post _ _ rfl

theorem sameLocks_setDin (s : Fs.State) (i : Slot) (din : Dinode) :
    SameLocks s (s.setDin i din) := by
  intro j
  by_cases eq : j = i
  · rw [eq, State.setDin_same]
  · rw [State.setDin_ne eq]

theorem wp_addrOf_locks (post : ∀ a s', SameLocks s s' → Q a s') : wp (addrOf sb i k) E Q s := by
  have refl : SameLocks s s := fun _ => rfl
  unfold addrOf
  simp only [wp_bind, wp_get]
  refine wp_ite (fun _ => ?_) fun _ => post _ _ refl
  rw [wp_bind]
  refine wp_balloc_locks fun a s' itable => ?_
  have same : SameLocks s s' := fun j => by rw [itable]
  refine wp_ite (fun _ => post _ _ same) fun _ => ?_
  simp only [wp_bind, wp_modify, wp_pure]
  exact post _ _ fun j => (sameLocks_setDin s' i _ j).trans (same j)

theorem wp_bmap_locks
    (post : ∀ a s', SameLocks s s' → Q a s') : wp (bmap sb i bn) (fun _ => True) Q s := by
  unfold bmap
  split
  · exact wp_addrOf_locks post
  · refine wp_ite (fun _ => ?_) fun _ => trivial
    rw [wp_bind]
    refine wp_addrOf_locks fun ind s' same => ?_
    refine wp_ite (fun _ => post _ _ same) fun _ => ?_
    simp only [wp_bind, wp_get]
    refine wp_ite (fun _ => ?_) fun _ => post _ _ same
    rw [wp_bind]
    refine wp_balloc_locks fun a s'' itable => ?_
    have same' : SameLocks s s'' := fun j => by rw [itable]; exact same j
    refine wp_ite (fun _ => post _ _ same') fun _ => ?_
    exact post _ _ same'

theorem wp_writeiLoop_locks :
    wp (writeiLoop sb i src 1 tot off m) (fun _ => True) (fun _ s' => SameLocks s s') s := by
  have refl : SameLocks s s := fun _ => rfl
  refine wp_ite (fun _ => ?_) fun _ => refl
  rw [wp_bind]
  refine wp_bmap_locks fun a s' same => ?_
  refine wp_ite (fun _ => same) fun _ => ?_
  simp only [wp_bind, wp_get]
  generalize copyin src _ tot (off % bsize) (s'.disk a.toNat) = copy
  obtain ⟨data, copied⟩ := copy
  simp only [wp_set]
  refine wp_ite (fun _ => same) fun _ => same

end Locks

section Write

theorem Wrote.once (w : Wrote sb h f start (some (entry f start)) n laid fs)
    (held : 0 < h (entry f start)) (v : (fs.itable (entry f start)).valid = true)
    {g : Nat → UInt8} (lt : tot < m)
    (fits : off₀ f start + laid.length + (m - tot) ≤ maxFile * bsize)
    (all : ∀ k < m, src k = some (g k))
    (space : ∀ t, bmap sb (entry f start) ((off₀ f start + laid.length) / bsize) fs ≠ .ok (0, t)) :
    wp (writeiLoop sb (entry f start) src 1 tot (off₀ f start + laid.length) m) E
      (fun r fs' => ∃ d, 0 < d ∧ tot + d ≤ m ∧
        r = (tot + d, off₀ f start + laid.length + d) ∧
        Wrote sb h f start (some (entry f start)) n
          (laid ++ (List.range d).map fun k => g (tot + k)) fs' ∧
        (fs'.itable (entry f start)).valid = true) fs := by
  have node := w.low.table.node_valid held v
  rw [w.inode] at node
  refine wp_writeiOnce w.low held v (by rw [← node]; exact w.file) lt fits all space
    fun d fs' pos le low grow new old => ⟨d, pos, le, rfl, ?_, grow.valid.trans v⟩
  rw [w.inode] at new old
  have grow_node := grow.node
  have grow_slots := grow.slots
  rw [w.inode] at grow_node grow_slots
  have length : (laid ++ (List.range d).map fun k => g (tot + k)).length = laid.length + d := by
    rw [length_append, length_map, length_range]
  have reach : ∀ o, o < max (size₀ sb f start) (off₀ f start + (laid.length + d)) →
      ¬(off₀ f start + laid.length ≤ o ∧ o < off₀ f start + laid.length + d) →
      o < max (size₀ sb f start) (off₀ f start + laid.length) := by
    intro o ho out
    omega
  refine ⟨low, ?_, ?_, ?_, ?_, ?_, ?_, ?_, fun o ho => ?_, fun o ho => ?_⟩
  · rw [grow.files.1]
    exact w.ip
  · rw [grow.files.1]
    exact w.writable
  · rw [grow.inum]
    exact w.inode
  · exact ⟨w.alive.1, by rw [grow_node]; exact w.alive.2⟩
  · rw [grow_node]
    exact w.file
  · rw [grow.files.1]
    exact w.off
  · rw [grow_node]
    exact w.size
  · rw [length] at ho
    by_cases inside : off₀ f start + laid.length ≤ o ∧ o < off₀ f start + laid.length + d
    · exact (new o inside.1 inside.2).1
    · have full := w.filled o (reach o ho inside)
      rwa [grow_slots _ full]
  · rw [length] at ho
    by_cases inside : off₀ f start + laid.length ≤ o ∧ o < off₀ f start + laid.length + d
    · rw [(new o inside.1 inside.2).2, overlay, if_pos (by rw [length]; omega),
        getD_append_right _ _ _ _ (by omega)]
      have lt' : o - off₀ f start - laid.length < d := by omega
      rw [getD_eq_getElem _ _ (by simpa using lt'), getElem_map, getElem_range]
      congr 2
      omega
    · have before := reach o ho inside
      rw [old o inside (w.filled o before), w.bytes o before]
      unfold overlay
      by_cases here : off₀ f start ≤ o ∧ o < off₀ f start + laid.length
      · rw [if_pos here, if_pos (by rw [length]; omega), getD_append _ _ _ _ (by omega)]
      · rw [if_neg here, if_neg (by rw [length]; omega)]

theorem advance_file : (advance fs f r).ftable f =
    { fs.ftable f with off := (fs.ftable f).off + UInt32.ofNat r } := update_self ..

theorem Wrote.finish (w : Wrote sb h f start (some (entry f start)) n laid fs)
    (held : 0 < h (entry f start)) (v : (fs.itable (entry f start)).valid = true)
    (count : n + tot = laid.length) (fits : off₀ f start + laid.length ≤ maxFile * bsize) :
    wp (writeiEnd sb (entry f start) (off₀ f start + laid.length)) E
      (fun _ fs' => Wrote sb h f start none laid.length laid
          (if tot > 0 then advance fs' f tot else fs') ∧
        (fs'.itable (entry f start)).valid = true ∧ SameLocks fs fs') fs := by
  have node_e := w.low.table.node_valid held v
  rw [w.inode] at node_e
  have small : maxFile * bsize < 2 ^ 32 := by decide
  -- the copy gets the new size, and goes to the disk
  have flushed : ∀ (t : Fs.State) (size : UInt32), Low sb h (some (entry f start)) t →
      t.disk = fs.disk → t.ftable = fs.ftable →
      (t.itable (entry f start)).inum = (fs.itable (entry f start)).inum →
      (t.itable (entry f start)).valid = true → SameLocks fs t →
      node sb t (inum f start) = { node sb fs (inum f start) with size := size } →
      size.toNat = max (size₀ sb f start) (off₀ f start + laid.length) →
      wp (iupdate sb (entry f start)) E
        (fun _ fs' => Wrote sb h f start none laid.length laid
            (if tot > 0 then advance fs' f tot else fs') ∧
          (fs'.itable (entry f start)).valid = true ∧ SameLocks fs fs') t := by
    intro t size low disk files inode v' locks node_t upto
    refine wp_iupdate low (.inr rfl) held v' fun q => ⟨?_, v', locks⟩
    have node' : node sb (t.flush sb (entry f start)) (inum f start) =
        { node sb fs (inum f start) with size := size } := by
      rw [low.table.node_flush (.inr rfl) held v', node_t]
    have data : ∀ k, slots sb fs (inum f start, k) ≠ 0 →
        (t.flush sb (entry f start)).disk (slots sb fs (inum f start, k)) =
          fs.disk (slots sb fs (inum f start, k)) := by
      intro k full
      rw [← disk]
      exact Superblock.setInode_data (low.table.inum_lt _ held) (w.low.volume.owned.bounds _ full).1
    have files' : (t.flush sb (entry f start)).ftable f = fs.ftable f := congrFun files f
    by_cases some_ : tot > 0
    · rw [if_pos some_]
      have node_advance : node sb (advance (t.flush sb (entry f start)) f tot) (inum f start) =
          { node sb fs (inum f start) with size := size } := by
        rw [← node']
        exact node_disk rfl rfl
      refine w.resize (low_of_same q.low rfl rfl) node_advance data ?_ ?_ inode ?_ upto
      · rw [advance_file, files']
      · rw [advance_file, files']
      · rw [advance_file, files', UInt32.toNat_add, w.off, UInt32.toNat_ofNat',
          Nat.mod_eq_of_lt (a := tot) (by omega), Nat.mod_eq_of_lt (by omega)]
        omega
    · rw [if_neg some_]
      refine w.resize q.low node' data ?_ ?_ inode ?_ upto
      · rw [files']
      · rw [files']
      · rw [files', w.off]
        omega
  have size := w.size
  rw [node_e] at size
  unfold writeiEnd
  simp only [wp_bind, wp_modify]
  by_cases larger : off₀ f start + laid.length > (fs.din (entry f start)).size.toNat
  · rw [if_pos larger]
    have new : (UInt32.ofNat (off₀ f start + laid.length)).toNat = off₀ f start + laid.length :=
      toNat_ofNat_offset fits
    have full : ∀ bn, bn * bsize < (UInt32.ofNat (off₀ f start + laid.length)).toNat →
        slots sb fs ((fs.itable (entry f start)).inum, dataSlot bn) ≠ 0 := by
      intro bn hbn
      rw [new] at hbn
      have full := w.filled (bn * bsize) (lt_of_lt_of_le hbn (le_max_right _ _))
      rwa [Nat.mul_div_cancel _ (show 0 < bsize by decide), ← w.inode] at full
    obtain ⟨low, node_t, -, -⟩ := w.low.setSize held v
      (UInt32.ofNat (off₀ f start + laid.length)) (by rwa [new]) full
      (fun k dir => absurd dir (by rw [← node_e]; exact w.file)) _ rfl
    rw [w.inode] at node_t
    refine flushed _ _ low rfl rfl ?_ ?_ (sameLocks_setDin fs _ _) node_t (by rw [new]; omega)
    · rw [State.setDin_same]
    · rwa [State.setDin_same]
  · rw [if_neg larger]
    exact flushed fs (node sb fs (inum f start)).size w.low rfl rfl rfl v (fun _ => rfl) rfl
      (by rw [node_e]; omega)

end Write

section Chunks

variable {j : Job} {c : Call}

theorem length_bytes (readable : c.n ≤ c.mem.length) : c.bytes.length = c.n.toNat := by
  rw [Call.bytes, length_take]
  omega

theorem length_chunk (readable : j.call.n ≤ j.call.mem.length) : j.chunk.length = j.n1 := by
  rw [Job.chunk, length_take, length_drop, length_bytes readable, Job.n1, Nat.min_comm]

theorem src_eq (readable : j.call.n ≤ j.call.mem.length) (lt : k < j.n1) :
    j.src k = some (j.chunk.getD k 0) := by
  have inside : j.i + k < j.call.n.toNat := by
    rw [Job.n1] at lt
    omega
  have small : k < writeMax := by
    rw [Job.n1] at lt
    omega
  have mem : j.i + k < j.call.mem.length := by omega
  have byte : j.chunk[k]? = j.call.mem[j.i + k]? := by
    rw [Job.chunk, List.getElem?_take_of_lt small, List.getElem?_drop, Call.bytes,
      List.getElem?_take_of_lt inside]
  rw [Job.src, ← byte, getD_eq_getElem?_getD, byte, List.getElem?_eq_getElem mem]
  rfl

theorem take_append_range {l : List UInt8} (le : tot + d ≤ l.length) :
    l.take tot ++ (List.range d).map (fun k => l.getD (tot + k) 0) = l.take (tot + d) := by
  rw [take_add]
  congr 1
  refine ext_getElem (by simp; omega) fun k hk _ => ?_
  rw [length_map, length_range] at hk
  rw [getElem_map, getElem_range, getElem_take, getElem_drop,
    getD_eq_getElem _ _ (by omega)]

theorem flat_append (cs : List (Nat × List UInt8)) (k : Nat) (bytes : List UInt8) :
    flat (cs ++ [(k, bytes)]) = flat cs ++ bytes := by
  simp [flat]

theorem chunk_eq (at_ : j.i = q * writeMax) : j.chunk = j.call.chunk q := by
  rw [Job.chunk, Call.chunk, at_]

end Chunks

section System

variable (sb : Superblock) (h : Slot → Nat) (f : Fin nfile) (start : Fs.State)

/-- What the file holds while a process with the lock is at `pc`: its chunk is the last one. -/
def Stage (s : State) : Pc → Prop
  | .writei j => (s.fs.itable (entry f start)).valid = true ∧
      ∃ cs, s.chunks = cs ++ [(j.id, j.chunk)] ∧
        Wrote sb h f start none (flat cs).length (flat cs) s.fs
  | .write j tot off => (s.fs.itable (entry f start)).valid = true ∧ tot ≤ j.n1 ∧
      ∃ cs, s.chunks = cs ++ [(j.id, j.chunk)] ∧ off = off₀ f start + ((flat cs).length + tot) ∧
        off₀ f start + ((flat cs).length + j.n1) ≤ maxFile * bsize ∧
        Wrote sb h f start (some (entry f start)) (flat cs).length
          (flat cs ++ j.chunk.take tot) s.fs
  | .finish j tot off => (s.fs.itable (entry f start)).valid = true ∧ tot = j.n1 ∧
      ∃ cs, s.chunks = cs ++ [(j.id, j.chunk)] ∧ off = off₀ f start + ((flat cs).length + tot) ∧
        off₀ f start + ((flat cs).length + j.n1) ≤ maxFile * bsize ∧
        Wrote sb h f start (some (entry f start)) (flat cs).length
          (flat cs ++ j.chunk.take tot) s.fs
  | .iunlock j r => r = j.n1 ∧
      Wrote sb h f start none (flat s.chunks).length (flat s.chunks) s.fs
  | .endOp j r => r = j.n1
  | _ => True

/-- The lock of the inode, and what the file holds. -/
structure Locked (s : State) : Prop where
  locked : ∀ p, (s.pc p).holding = true ↔ (s.fs.itable (entry f start)).lock = some p.val
  holder : (s.fs.itable (entry f start)).lock = none ∨
    ∃ p : Fin nproc, (s.fs.itable (entry f start)).lock = some p.val
  free : (s.fs.itable (entry f start)).lock = none →
    Wrote sb h f start none (flat s.chunks).length (flat s.chunks) s.fs
  stage : ∀ p, Stage sb h f start s (s.pc p)

end System

section Locked

variable {s' : State} {p : Fin nproc} {pc : Pc}

theorem Stage.of_not_holding (stage : Stage sb h f start s pc) (out : pc.holding = false) :
    Stage sb h f start s' pc := by
  cases pc with
  | user | test | ilock => trivial
  | endOp j r => exact stage
  | writei | write | finish | iunlock => cases out

section

variable (inv : Locked sb h f start s)

include inv

theorem Locked.outside (fs : s'.fs = s.fs) (chunks : s'.chunks = s.chunks)
    (pcs : s'.pc = update s.pc p pc) (was : (s.pc p).holding = false) (out : pc.holding = false)
    (stage : Stage sb h f start s' pc) :
    Locked sb h f start s' := by
  refine ⟨fun p' => ?_, by rw [fs]; exact inv.holder, by rw [fs, chunks]; exact inv.free,
    fun p' => ?_⟩
  all_goals by_cases eq : p' = p
  · have none := (inv.locked p).not.mp (by rw [was]; exact nofun)
    rw [eq, pcs, update_self, out, fs]
    exact ⟨nofun, fun own => absurd own none⟩
  · rw [pcs, update_of_ne eq, fs]
    exact inv.locked p'
  · rwa [eq, pcs, update_self]
  · rw [pcs, update_of_ne eq]
    have old := inv.stage p'
    generalize s.pc p' = pc' at old
    unfold Stage at old ⊢
    rwa [fs, chunks]

theorem Locked.others (own : (s.fs.itable (entry f start)).lock = some p.val) (ne : p' ≠ p) :
    (s.pc p').holding = false := by
  by_contra held
  have own' := (inv.locked p').mp (Bool.not_eq_false _ ▸ held)
  rw [own] at own'
  exact ne (Fin.ext (Option.some.inj own').symm)

theorem Locked.nobody (free : (s.fs.itable (entry f start)).lock = none) (p' : Fin nproc) :
    (s.pc p').holding = false := by
  by_contra held
  have own := (inv.locked p').mp (Bool.not_eq_false _ ▸ held)
  rw [free] at own
  cases own

theorem Locked.hold (others : ∀ p', p' ≠ p → (s.pc p').holding = false)
    (own : (s'.fs.itable (entry f start)).lock = some p.val) (pcs : s'.pc = update s.pc p pc)
    (held : pc.holding = true) (stage : Stage sb h f start s' pc) : Locked sb h f start s' := by
  refine ⟨fun p' => ?_, .inr ⟨p, own⟩, fun none => ?_, fun p' => ?_⟩
  · by_cases eq : p' = p
    · rw [eq, pcs, update_self, held, own]
      exact ⟨fun _ => rfl, fun _ => rfl⟩
    · rw [pcs, update_of_ne eq, others p' eq, own]
      exact ⟨nofun, fun e => absurd (Fin.ext (Option.some.inj e).symm) eq⟩
  · rw [own] at none
    cases none
  · by_cases eq : p' = p
    · rwa [eq, pcs, update_self]
    · rw [pcs, update_of_ne eq]
      exact (inv.stage p').of_not_holding (others p' eq)

theorem Locked.leave (own : (s.fs.itable (entry f start)).lock = some p.val)
    (free' : (s'.fs.itable (entry f start)).lock = none) (pcs : s'.pc = update s.pc p pc)
    (out : pc.holding = false) (stage : Stage sb h f start s' pc)
    (wrote : Wrote sb h f start none (flat s'.chunks).length (flat s'.chunks) s'.fs) :
    Locked sb h f start s' := by
  refine ⟨fun p' => ?_, .inl free', fun _ => wrote, fun p' => ?_⟩
  all_goals by_cases eq : p' = p
  · rw [eq, pcs, update_self, out, free']
    exact ⟨nofun, nofun⟩
  · rw [pcs, update_of_ne eq, inv.others own eq, free']
    exact ⟨nofun, nofun⟩
  · rwa [eq, pcs, update_self]
  · rw [pcs, update_of_ne eq]
    exact (inv.stage p').of_not_holding (inv.others own eq)

end

end Locked

section Jobs

def Pc.started : Pc → Bool
  | .user | .test _ | .ilock _ => false
  | _ => true

/-- The chunks of call `j` so far, and what is known of it while it runs. -/
structure Own (s : State) (pc : Pc) (j : Job) : Prop where
  call : s.calls[j.id]? = some j.call
  readable : j.call.n ≤ j.call.mem.length
  more : pc = .test j ∨ (j.i : Int) < j.call.n
  chunks : ∃ q, j.i = min (q * writeMax) j.call.n.toNat ∧ q ≤ j.call.count ∧
    s.chunksOf j.id = (List.range (q + if pc.started then 1 else 0)).map j.call.chunk

/-- Every call either runs, in one process, or has returned after all its chunks. -/
structure Jobs (s : State) : Prop where
  own : ∀ p j, (s.pc p).job = some j → Own s (s.pc p) j
  unique : ∀ p p' j j', (s.pc p).job = some j → (s.pc p').job = some j' → j.id = j'.id → p = p'
  running : ∀ k r, (k, r) ∈ s.rets → ∀ p j, (s.pc p).job = some j → j.id ≠ k
  returned : ∀ k r, (k, r) ∈ s.rets → ∃ c, s.calls[k]? = some c ∧ r = c.result ∧
    s.chunksOf k = (List.range c.count).map c.chunk
  covered : ∀ k < s.calls.length, (∃ p j, (s.pc p).job = some j ∧ j.id = k) ∨ ∃ r, (k, r) ∈ s.rets
  ids : ∀ e ∈ s.chunks, e.1 < s.calls.length
  readable : ∀ c ∈ s.calls, c.n ≤ c.mem.length

variable {s s' : State} {p : Fin nproc} {pc : Pc} {j j' : Job} {k : Nat}

theorem chunksOf_append (chunks : s'.chunks = s.chunks ++ [(k, j.chunk)]) (l : Nat) :
    s'.chunksOf l = s.chunksOf l ++ if k = l then [j.chunk] else [] := by
  simp only [State.chunksOf, chunks, filter_append, map_append]
  by_cases eq : k = l <;> simp [eq]

theorem Own.id_lt (own : Own s pc j) : j.id < s.calls.length :=
  (List.getElem?_eq_some_iff.mp own.call).1

theorem job_back (pcs : s'.pc = update s.pc p pc) (hl : (s'.pc p').job = some l) :
    p' = p ∧ pc.job = some l ∨ p' ≠ p ∧ s'.pc p' = s.pc p' ∧ (s.pc p').job = some l := by
  rw [pcs] at hl ⊢
  by_cases eq : p' = p
  · rw [eq, update_self] at hl
    exact .inl ⟨eq, hl⟩
  · rw [update_of_ne eq] at hl ⊢
    exact .inr ⟨eq, rfl, hl⟩

theorem Jobs.go (jobs : Jobs s) (was : (s.pc p).job = some j)
    (pcs : s'.pc = update s.pc p pc) (now : pc.job = some j') (id : j'.id = j.id)
    (calls : s'.calls = s.calls) (rets : s'.rets = s.rets)
    (others : ∀ l, l ≠ j.id → s'.chunksOf l = s.chunksOf l)
    (ids : ∀ e ∈ s'.chunks, e.1 < s.calls.length) (own : Own s' pc j') : Jobs s' := by
  -- the calls of the processes are those before, except for that of `p`
  have back : ∀ p' l, (s'.pc p').job = some l → p' = p ∧ l = j' ∨
      p' ≠ p ∧ s'.pc p' = s.pc p' ∧ (s.pc p').job = some l := fun p' l hl =>
    (job_back pcs hl).imp_left fun ⟨eq, mine⟩ => ⟨eq, Option.some.inj (mine.symm.trans now)⟩
  have before : ∀ p' l, (s'.pc p').job = some l → ∃ l', (s.pc p').job = some l' ∧ l'.id = l.id := by
    intro p' l hl
    rcases back p' l hl with ⟨rfl, rfl⟩ | ⟨-, -, hl⟩
    · exact ⟨j, was, id.symm⟩
    · exact ⟨l, hl, rfl⟩
  refine ⟨fun p' l hl => ?_, fun p1 p2 l1 l2 h1 h2 eq => ?_, fun k r mem p' l hl => ?_,
    fun k r mem => ?_, fun k lt => ?_, ?_, ?_⟩
  · rcases back p' l hl with ⟨rfl, rfl⟩ | ⟨ne, same, hl⟩
    · rwa [pcs, update_self]
    · have old := jobs.own p' l hl
      have apart : l.id ≠ j.id := fun eq => ne (jobs.unique p' p l j hl was eq)
      rw [same]
      exact ⟨by rw [calls]; exact old.call, old.readable, old.more, by
        rw [others l.id apart]; exact old.chunks⟩
  · obtain ⟨l1', h1', id1⟩ := before p1 l1 h1
    obtain ⟨l2', h2', id2⟩ := before p2 l2 h2
    exact jobs.unique p1 p2 l1' l2' h1' h2' (id1.trans (eq.trans id2.symm))
  · obtain ⟨l', hl', id'⟩ := before p' l hl
    rw [rets] at mem
    rw [← id']
    exact jobs.running k r mem p' l' hl'
  · rw [rets] at mem
    rw [others k (jobs.running k r mem p j was).symm, calls]
    exact jobs.returned k r mem
  · rw [calls] at lt
    rw [rets]
    refine (jobs.covered k lt).imp_left fun ⟨p', l, hl, eq⟩ => ?_
    by_cases at_ : p' = p
    · subst at_
      refine ⟨p', j', by rw [pcs, update_self, now], id.trans ?_⟩
      rw [was] at hl
      rw [Option.some.inj hl, eq]
    · exact ⟨p', l, by rw [pcs, update_of_ne at_, hl], eq⟩
  · rwa [calls]
  · rw [calls]
    exact jobs.readable

theorem Jobs.call (jobs : Jobs s) (was : (s.pc p).job = none) (readable : c.n ≤ c.mem.length)
    (pcs : s'.pc = update s.pc p (.test ⟨s.calls.length, c, 0⟩))
    (calls : s'.calls = s.calls ++ [c]) (rets : s'.rets = s.rets) (chunks : s'.chunks = s.chunks) :
    Jobs s' := by
  have same : ∀ k, s'.chunksOf k = s.chunksOf k := fun k => by
    rw [State.chunksOf, State.chunksOf, chunks]
  have fresh : s'.chunksOf s.calls.length = [] := by
    rw [same, State.chunksOf, map_eq_nil_iff, filter_eq_nil_iff]
    intro e mem
    simpa using (jobs.ids e mem).ne
  have old : ∀ {k : Nat} {d : Call}, s.calls[k]? = some d → s'.calls[k]? = some d := by
    intro k d hd
    rw [calls, List.getElem?_append_left (List.getElem?_eq_some_iff.mp hd).1, hd]
  have length : s'.calls.length = s.calls.length + 1 := by
    rw [calls, length_append, length_singleton]
  have lt_of_ret : ∀ k r, (k, r) ∈ s.rets → k < s.calls.length := by
    intro k r mem
    obtain ⟨d, hd, -⟩ := jobs.returned k r mem
    exact (List.getElem?_eq_some_iff.mp hd).1
  have back : ∀ p' l, (s'.pc p').job = some l → p' = p ∧ l = ⟨s.calls.length, c, 0⟩ ∨
      p' ≠ p ∧ s'.pc p' = s.pc p' ∧ (s.pc p').job = some l := fun p' l hl =>
    (job_back pcs hl).imp_left fun ⟨eq, mine⟩ => ⟨eq, (Option.some.inj mine).symm⟩
  refine ⟨fun p' l hl => ?_, fun p1 p2 l1 l2 h1 h2 eq => ?_, fun k r mem p' l hl => ?_,
    fun k r mem => ?_, fun k lt => ?_, fun e mem => ?_, fun d mem => ?_⟩
  · rcases back p' l hl with ⟨rfl, rfl⟩ | ⟨-, eq, hl⟩
    · rw [pcs, update_self]
      refine ⟨?_, readable, .inl rfl, 0, by simp, Nat.zero_le _, fresh⟩
      rw [calls, List.getElem?_append_right le_rfl, Nat.sub_self]
      rfl
    · have own := jobs.own p' l hl
      rw [eq]
      exact ⟨old own.call, own.readable, own.more, by rw [same]; exact own.chunks⟩
  · rcases back p1 l1 h1 with ⟨rfl, rfl⟩ | ⟨-, -, h1⟩ <;>
      rcases back p2 l2 h2 with ⟨rfl, rfl⟩ | ⟨-, -, h2⟩
    · rfl
    · exact absurd eq (jobs.own p2 l2 h2).id_lt.ne'
    · exact absurd eq (jobs.own p1 l1 h1).id_lt.ne
    · exact jobs.unique p1 p2 l1 l2 h1 h2 eq
  · rw [rets] at mem
    rcases back p' l hl with ⟨rfl, rfl⟩ | ⟨-, -, hl⟩
    · exact (lt_of_ret k r mem).ne'
    · exact jobs.running k r mem p' l hl
  · rw [rets] at mem
    obtain ⟨d, hd, result, all⟩ := jobs.returned k r mem
    exact ⟨d, old hd, result, by rw [same, all]⟩
  · rw [length] at lt
    rcases Nat.lt_succ_iff_lt_or_eq.mp lt with lt | rfl
    · rw [rets]
      refine (jobs.covered k lt).imp_left fun ⟨p', l, hl, eq⟩ => ?_
      have ne : p' ≠ p := by
        rintro rfl
        rw [was] at hl
        cases hl
      exact ⟨p', l, by rw [pcs, update_of_ne ne, hl], eq⟩
    · exact .inl ⟨p, ⟨s.calls.length, c, 0⟩, by rw [pcs, update_self]; rfl, rfl⟩
  · rw [chunks] at mem
    rw [length]
    exact Nat.lt_succ_of_lt (jobs.ids e mem)
  · rw [calls] at mem
    rcases mem_append.mp mem with mem | mem
    · exact jobs.readable d mem
    · rwa [mem_singleton.mp mem]

theorem Own.complete (own : Own s (.test j) j) (done : ¬(j.i : Int) < j.call.n) :
    s.chunksOf j.id = (List.range j.call.count).map j.call.chunk ∧
      (if (j.i : Int) = j.call.n then j.call.n else -1) = j.call.result := by
  obtain ⟨q, at_, le, chunks⟩ := own.chunks
  have width : writeMax = 3072 := rfl
  rw [Call.count, width] at le
  rw [width] at at_
  have all : q = j.call.count := by
    rw [Call.count, width]
    omega
  refine ⟨by rw [chunks, all]; rfl, ?_⟩
  rw [Call.result]
  split <;> split <;> omega

theorem Jobs.ret (jobs : Jobs s) (was : s.pc p = .test j) (done : ¬(j.i : Int) < j.call.n) :
    Jobs (s.ret p j) := by
  have job : (s.pc p).job = some j := by rw [was]; rfl
  have own := jobs.own p j job
  rw [was] at own
  obtain ⟨all, result⟩ := own.complete done
  have back : ∀ p' l, ((s.ret p j).pc p').job = some l → p' ≠ p ∧ (s.ret p j).pc p' = s.pc p' ∧
      (s.pc p').job = some l := fun p' l hl =>
    (job_back (show (s.ret p j).pc = update s.pc p .user from rfl) hl).resolve_left
      fun ⟨_, mine⟩ => nomatch mine
  have rets : ∀ k r, (k, r) ∈ (s.ret p j).rets →
      (k, r) ∈ s.rets ∨ k = j.id ∧ r = j.call.result := by
    intro k r mem
    rcases mem_append.mp mem with mem | mem
    · exact .inl mem
    · obtain ⟨rfl, rfl⟩ := Prod.mk.inj (mem_singleton.mp mem)
      exact .inr ⟨rfl, result⟩
  refine ⟨fun p' l hl => ?_, fun p1 p2 l1 l2 h1 h2 eq => ?_, fun k r mem p' l hl => ?_,
    fun k r mem => ?_, fun k lt => ?_, jobs.ids, jobs.readable⟩
  · obtain ⟨-, eq, hl⟩ := back p' l hl
    have old := jobs.own p' l hl
    rw [eq]
    exact ⟨old.call, old.readable, old.more, old.chunks⟩
  · exact jobs.unique p1 p2 l1 l2 (back p1 l1 h1).2.2 (back p2 l2 h2).2.2 eq
  · obtain ⟨ne, -, hl⟩ := back p' l hl
    rcases rets k r mem with mem | ⟨rfl, -⟩
    · exact jobs.running k r mem p' l hl
    · exact fun eq => ne (jobs.unique p' p l j hl job eq)
  · rcases rets k r mem with mem | ⟨rfl, rfl⟩
    · exact jobs.returned k r mem
    · exact ⟨j.call, own.call, rfl, all⟩
  · rcases jobs.covered k lt with ⟨p', l, hl, eq⟩ | ⟨r, mem⟩
    · by_cases at_ : p' = p
      · subst at_
        rw [job] at hl
        rw [← eq, ← Option.some.inj hl]
        exact .inr ⟨_, mem_append_right _ (mem_singleton_self _)⟩
      · exact .inl ⟨p', l, by
          show (update s.pc p .user p').job = some l
          rw [update_of_ne at_, hl], eq⟩
    · exact .inr ⟨r, mem_append_left _ mem⟩

end Jobs

end Xv6.Writers
