import Xv6.Param

/-! The inode table of `kernel/fs.c`: the disk inode, the table entry, and the scan of `iget` with
what it finds. -/

namespace Xv6

open Function

structure Dinode where
  type : Int16
  major : Int16
  minor : Int16
  nlink : Int16
  size : UInt32
  addrs : Fin (ndirect + 1) → UInt32
  deriving DecidableEq

def Dinode.zero : Dinode := ⟨0, 0, 0, 0, 0, fun _ => 0⟩

def Dinode.setAddr (din : Dinode) (k : Fin (ndirect + 1)) (a : UInt32) : Dinode :=
  { din with addrs := update din.addrs k a }

/-- `struct inode`: an entry of the inode table.  `lock` is the holder of the sleep-lock, and `din`
the copy of the disk inode. -/
structure Inode where
  dev : Nat
  inum : Nat
  ref : Int
  lock : Option Pid
  valid : Bool
  din : Dinode

abbrev Slot : Type := Fin ninode

abbrev Itable : Type := Slot → Inode

def Itable.init : Itable := fun _ => ⟨0, 0, 0, none, false, Dinode.zero⟩

/-- The entry `ip` is in use for inode `inum` of device `dev`. -/
def Inode.Is (ip : Inode) (dev inum : Nat) : Prop := 0 < ip.ref ∧ ip.dev = dev ∧ ip.inum = inum

instance (ip : Inode) (dev inum : Nat) : Decidable (ip.Is dev inum) :=
  inferInstanceAs (Decidable (_ ∧ _ ∧ _))

/-- What the loop of `iget` ends with. -/
inductive Found
  | hit (i : Slot)
  | miss (empty : Option Slot)

/-- The loop of `iget` over the entries `slots`, with the empty slot found so far. -/
def igetScan (t : Itable) (dev inum : Nat) : List Slot → Option Slot → Found
  | [], empty => .miss empty
  | i :: slots, empty =>
    if (t i).Is dev inum then .hit i
    else igetScan t dev inum slots (if empty = none ∧ (t i).ref = 0 then some i else empty)

/-- `iget`, with no result for the panic "iget: no inodes". -/
def iget (t : Itable) (dev inum : Nat) : Option (Slot × Itable) :=
  match igetScan t dev inum (List.finRange ninode) none with
  | .hit i => some (i, update t i { t i with ref := (t i).ref + 1 })
  | .miss none => none
  | .miss (some i) =>
    some (i, update t i { t i with dev := dev, inum := inum, ref := 1, valid := false })

variable {t : Itable} {dev inum : Nat}

theorem igetScan_hit (slots : List Slot) (empty : Option Slot)
    (h : igetScan t dev inum slots empty = .hit i) : (t i).Is dev inum := by
  induction slots generalizing empty with
  | nil => cases h
  | cons j slots ih =>
    rw [igetScan] at h
    split at h
    · cases h; assumption
    · exact ih _ h

theorem igetScan_miss (slots : List Slot) (empty : Option Slot)
    (h : igetScan t dev inum slots empty = .miss found) : (∀ i ∈ slots, ¬(t i).Is dev inum) ∧
      ∀ i, found = some i → empty = some i ∨ (t i).ref = 0 := by
  induction slots generalizing empty with
  | nil =>
    cases h
    exact ⟨by simp, fun i hi => .inl hi⟩
  | cons j slots ih =>
    rw [igetScan] at h
    split at h
    · cases h
    · obtain ⟨none_, free⟩ := ih _ h
      refine ⟨fun i hi => ?_, fun i hi => ?_⟩
      · rcases List.mem_cons.mp hi with rfl | hi
        · assumption
        · exact none_ i hi
      · rcases free i hi with he | he
        · split at he
          · cases he; right; exact (‹_ ∧ _›).2
          · exact .inl he
        · exact .inr he

/-- `iget` returns the entry in use for the inode, with one more reference, or takes an unused one.
-/
theorem iget_cases (h : iget t dev inum = some (i, t')) :
    ((t i).Is dev inum ∧ t' = update t i { t i with ref := (t i).ref + 1 }) ∨
      ((∀ j, ¬(t j).Is dev inum) ∧ (t i).ref = 0 ∧
        t' = update t i
          { t i with dev := dev, inum := inum, ref := 1, valid := false }) := by
  unfold iget at h
  split at h
  · rename_i j hj
    cases h
    exact .inl ⟨igetScan_hit _ _ hj, rfl⟩
  · cases h
  · rename_i j hj
    cases h
    obtain ⟨none_, free⟩ := igetScan_miss _ _ hj
    refine .inr ⟨fun k => none_ k (List.mem_finRange k), ?_, rfl⟩
    rcases free i rfl with he | he
    · cases he
    · exact he

theorem iget_none (h : iget t dev inum = none) (i : Slot) : ¬(t i).Is dev inum := by
  unfold iget at h
  split at h
  · cases h
  · rename_i hj
    exact (igetScan_miss _ _ hj).1 i (List.mem_finRange i)
  · cases h

theorem igetScan_full (slots : List Slot) (empty : Option Slot)
    (h : igetScan t dev inum slots empty = .miss none) :
    empty = none ∧ ∀ i ∈ slots, (t i).ref ≠ 0 := by
  induction slots generalizing empty with
  | nil =>
    cases h
    exact ⟨rfl, nofun⟩
  | cons j slots ih =>
    rw [igetScan] at h
    split at h
    · cases h
    · obtain ⟨none_, used⟩ := ih _ h
      split at none_
      · cases none_
      · rename_i taken
        refine ⟨none_, fun i hi => ?_⟩
        rcases List.mem_cons.mp hi with rfl | hi
        · exact fun zero => taken ⟨none_, zero⟩
        · exact used i hi

theorem iget_full (h : iget t dev inum = none) (i : Slot) : (t i).ref ≠ 0 := by
  unfold iget at h
  split at h
  · cases h
  · rename_i hj
    exact (igetScan_full _ _ hj).2 i (List.mem_finRange i)
  · cases h

end Xv6
