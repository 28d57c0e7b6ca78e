import Xv6.Inode.Table
import Xv6.Lib.Run

/-! The inode table under any interleaving of `iget`, `idup`, `ilock`, `iunlock`, `iput` and
`ialloc`. Each section under `itable.lock` or a sleep-lock is one step; the branch of `iput` that
frees an inode takes seven. -/

namespace Xv6.Coherence

open Transition Function

/-- The steps of `iput`'s free branch, named by what comes next: `itrunc`, its `iupdate`, `ip->type
= 0`, the next `iupdate`, `ip->valid = 0`, `releasesleep`, and `ip->ref--`. -/
inductive FreePc
  | trunc
  | truncUpdate
  | zero
  | zeroUpdate
  | invalidate
  | unlock
  | drop
  deriving DecidableEq, Repr

inductive Pc
  | idle
  /-- in `ilock`, waiting for the sleep-lock -/
  | locking (i : Slot)
  /-- in `ilock`, holding the sleep-lock -/
  | loading (i : Slot)
  | freeing (at_ : FreePc) (i : Slot)
  /-- in the loop of `ialloc` -/
  | scanning (dev : Nat) (type : Int16) (inum : Nat)
  /-- in `ialloc`, about to call `iget` for the inode that it took -/
  | taken (dev inum : Nat)
  deriving DecidableEq, Repr

inductive Panic
  | iget
  | ilock
  | noType
  | iunlock
  deriving DecidableEq, Repr

/-- The table, the disk inodes as logged, and the processes with the references that they hold. The
last three fields record the run: unsaved changes of an entry, how often each inode was allocated,
and that number when an entry's copy was read. -/
structure State where
  table : Itable
  disk : Nat → Nat → Dinode
  proc : Pid → Pc
  panicked : Option Panic
  refs : List (Pid × Slot)
  dirty : Slot → Bool
  allocs : Nat → Nat → Nat
  read : Slot → Nat

namespace State

variable (s : State)

def setProc (p : Pid) (pc : Pc) : State := { s with proc := update s.proc p pc }

def setEntry (i : Slot) (ip : Inode) : State := { s with table := update s.table i ip }

def dinode (i : Slot) : Dinode := s.disk (s.table i).dev (s.table i).inum

def setDisk (dev inum : Nat) (d : Dinode) : State :=
  { s with disk := update s.disk dev (update (s.disk dev) inum d) }

def panic (why : Panic) : State := { s with panicked := some why }

def init (disk : Nat → Nat → Dinode) : State where
  table := Itable.init
  disk := disk
  proc := fun _ => .idle
  panicked := none
  refs := []
  dirty := fun _ => false
  allocs := fun _ _ => 0
  read := fun _ => 0

/-- `iget` by process `p`, which then stands at `pc`. -/
def iget (p : Pid) (dev inum : Nat) (pc : Pc) : State :=
  match Xv6.iget s.table dev inum with
  | none => s.panic .iget
  | some (i, table) => { s.setProc p pc with table := table, refs := (p, i) :: s.refs }

def drop (p : Pid) (i : Slot) : State :=
  { (s.setEntry i { s.table i with ref := (s.table i).ref - 1 }).setProc p .idle with
    refs := s.refs.erase (p, i) }

end State

inductive Label
  | iget (p : Pid) (dev inum : Nat)
  | idup (p : Pid) (i : Slot)
  | ilock (p : Pid) (i : Slot)
  /-- the holder of entry `i` changes the copy in it -/
  | modify (p : Pid) (i : Slot) (d : Dinode)
  | iupdate (p : Pid) (i : Slot)
  | iunlock (p : Pid) (i : Slot)
  | iput (p : Pid) (i : Slot)
  | ialloc (p : Pid) (dev : Nat) (type : Int16)
  /-- the next step of the call that `p` is in -/
  | next (p : Pid)

def freeStep (s : State) (p : Pid) (i : Slot) : FreePc → State
  | .trunc =>
    (s.setEntry i { s.table i with
      din := { (s.table i).din with size := 0, addrs := fun _ => 0 } }).setProc p
        (.freeing .truncUpdate i)
  | .truncUpdate =>
    (s.setDisk (s.table i).dev (s.table i).inum (s.table i).din).setProc p (.freeing .zero i)
  | .zero =>
    (s.setEntry i { s.table i with din := { (s.table i).din with type := 0 } }).setProc p
      (.freeing .zeroUpdate i)
  | .zeroUpdate =>
    (s.setDisk (s.table i).dev (s.table i).inum (s.table i).din).setProc p
      (.freeing .invalidate i)
  | .invalidate =>
    (s.setEntry i { s.table i with valid := false }).setProc p (.freeing .unlock i)
  | .unlock => (s.setEntry i { s.table i with lock := none }).setProc p (.freeing .drop i)
  | .drop => s.drop p i

def load (s : State) (p : Pid) (i : Slot) : State :=
  if (s.table i).valid then s.setProc p .idle
  else
    let s' : State := { (s.setEntry i { s.table i with din := s.dinode i, valid := true }) with
      read := update s.read i (s.allocs (s.table i).dev (s.table i).inum)
      dirty := update s.dirty i false }
    if (s.dinode i).type = 0 then s'.panic .noType else s'.setProc p .idle

def scan (ninodes : Nat) (s : State) (p : Pid) (dev : Nat) (type : Int16) (inum : Nat) : State :=
  if inum < ninodes then
    if (s.disk dev inum).type = 0 then
      { (s.setDisk dev inum { Dinode.zero with type := type }).setProc p (.taken dev inum) with
        allocs := update s.allocs dev
          (update (s.allocs dev) inum (s.allocs dev inum + 1)) }
    else s.setProc p (.scanning dev type (inum + 1))
  else s.setProc p .idle

/-- A step of the system, for a file system with `ninodes` inodes.  A process uses only entries that
it holds a reference to. -/
def step (ninodes : Nat) (l : Label) (s : State) : Option State :=
  if s.panicked ≠ none then none
  else match l with
  | .iget p dev inum => if s.proc p = .idle then some (s.iget p dev inum .idle) else none
  | .idup p i =>
    if s.proc p = .idle ∧ (p, i) ∈ s.refs then
      some { s.setEntry i { s.table i with ref := (s.table i).ref + 1 } with
        refs := (p, i) :: s.refs }
    else none
  | .ilock p i =>
    if s.proc p = .idle ∧ (p, i) ∈ s.refs then
      if (s.table i).ref < 1 then some (s.panic .ilock) else some (s.setProc p (.locking i))
    else none
  | .modify p i d =>
    if s.proc p = .idle ∧ (s.table i).lock = some p then
      some { s.setEntry i { s.table i with din := d } with
        dirty := update s.dirty i true }
    else none
  | .iupdate p i =>
    if s.proc p = .idle ∧ (s.table i).lock = some p then
      some { s.setDisk (s.table i).dev (s.table i).inum (s.table i).din with
        dirty := update s.dirty i false }
    else none
  | .iunlock p i =>
    if s.proc p = .idle ∧ (p, i) ∈ s.refs then
      if (s.table i).lock ≠ some p ∨ (s.table i).ref < 1 then some (s.panic .iunlock)
      else some (s.setEntry i { s.table i with lock := none })
    else none
  | .iput p i =>
    if s.proc p = .idle ∧ (p, i) ∈ s.refs then
      if (s.table i).ref = 1 ∧ (s.table i).valid ∧ (s.table i).din.nlink = 0 then
        if (s.table i).lock = none then
          some ((s.setEntry i { s.table i with lock := some p }).setProc p (.freeing .trunc i))
        else none
      else some (s.drop p i)
    else none
  | .ialloc p dev type =>
    if s.proc p = .idle then some (s.setProc p (.scanning dev type 1)) else none
  | .next p =>
    match s.proc p with
    | .idle => none
    | .locking i =>
      if (s.table i).lock = none then
        some ((s.setEntry i { s.table i with lock := some p }).setProc p (.loading i))
      else none
    | .loading i => some (load s p i)
    | .freeing at_ i => some (freeStep s p i at_)
    | .scanning dev type inum => some (scan ninodes s p dev type inum)
    | .taken dev inum => some (s.iget p dev inum .idle)

/-- The callers' part: inodes keep a type other than 0, who changed an inode calls `iupdate` before
`iunlock`, and nobody calls `iput` with the inode's lock held. -/
def Disciplined (s : State) : Label → Prop
  | .ialloc _ _ type => type ≠ 0
  | .modify _ _ d => d.type ≠ 0
  | .iunlock _ i => s.dirty i = false
  | .iput p i => (s.table i).lock ≠ some p
  | _ => True

instance (s : State) : (l : Label) → Decidable (Disciplined s l)
  | .ialloc _ _ type => inferInstanceAs (Decidable (type ≠ 0))
  | .modify _ _ d => inferInstanceAs (Decidable (d.type ≠ 0))
  | .iunlock _ i => inferInstanceAs (Decidable (s.dirty i = false))
  | .iput p i => inferInstanceAs (Decidable ((s.table i).lock ≠ some p))
  | .iget _ _ _ | .idup _ _ | .ilock _ _ | .iupdate _ _ | .next _ => .isTrue trivial

abbrev Reach (ninodes : Nat) (disk : Nat → Nat → Dinode) : State → Prop :=
  Transition.Reach (step ninodes) Disciplined (State.init disk)

end Xv6.Coherence
