import Xv6.Fs.Layout

/-! The file system of `kernel/fs.c`. A system call runs without another in between; `disk` holds
what `bread` returns. A panic, or a sleep for a lock that the process holds itself, stops the
system. -/

namespace Xv6.Fs

inductive Stop
  | freeingFreeBlock
  | igetNoInodes
  | ilock
  | ilockNoType
  | iunlock
  | bmapOutOfRange
  | dirlookupNotDir
  | dirlookupRead
  | dirlinkRead
  | unlinkWritei
  | filedup
  | fileclose
  | initExiting
  /-- The process sleeps for a lock that it holds. -/
  | deadlock
  deriving DecidableEq, Repr

/-- The file types of `stat.h`. -/
abbrev tDir : Int16 := 1

abbrev tFile : Int16 := 2

abbrev tDevice : Int16 := 3

inductive FdType
  | none
  | pipe
  | inode
  | device
  deriving DecidableEq, Repr

structure File where
  type : FdType
  ref : Int
  readable : Bool
  writable : Bool
  ip : Slot
  off : UInt32
  major : Int16

/-- The disk, the inode table, the file table and the processes' directories; `cur` is the process
in the kernel. -/
structure State where
  disk : Disk
  itable : Itable
  ftable : Fin nfile → File
  cwd : Fin nproc → Option Slot
  cur : Fin nproc

abbrev M (α : Type) : Type := StateT State (Except Stop) α

/-- The name in a directory entry or an element of a path, up to its first NUL. -/
abbrev Name : Type := List UInt8

namespace State

variable (s : State)

def setDisk (d : Disk) : State := { s with disk := d }

def setItable (t : Itable) : State := { s with itable := t }

def setInode (i : Slot) (ip : Inode) : State :=
  { s with itable := Function.update s.itable i ip }

def setDin (i : Slot) (din : Dinode) : State := s.setInode i { s.itable i with din := din }

def din (i : Slot) : Dinode := (s.itable i).din

end State

section Blocks

variable (sb : Superblock)

/-- `balloc` with its `bzero`.  The two loops of the source visit the block numbers in order. -/
def balloc : M UInt32 := do
  let s ← get
  match (List.range sb.size).find? fun b => !sb.bit s.disk b with
  | some b =>
    set (s.setDisk (setBlock (sb.markUsed s.disk b) b fun _ => 0))
    return UInt32.ofNat b
  | none => return 0

def bfree (b : UInt32) : M Unit := do
  let s ← get
  if sb.bit s.disk b.toNat then
    set (s.setDisk (sb.markFree s.disk b.toNat))
  else throw .freeingFreeBlock

end Blocks

section Inodes

variable (sb : Superblock)

def iget (inum : Nat) : M Slot := do
  let s ← get
  match Xv6.iget s.itable rootdev inum with
  | some (i, t) =>
    set (s.setItable t)
    return i
  | none => throw .igetNoInodes

/-- `ialloc`, with no result when there is no free inode. -/
def ialloc (type : Int16) : M (Option Slot) := do
  let s ← get
  match (List.range sb.ninodes).find? fun inum =>
      inum ≠ 0 && (sb.inode s.disk inum).type = 0 with
  | some inum =>
    set (s.setDisk (sb.setInode s.disk inum { Dinode.zero with type := type }))
    return some (← iget inum)
  | none => return none

def iupdate (i : Slot) : M Unit :=
  modify fun s => s.setDisk (sb.setInode s.disk (s.itable i).inum (s.din i))

def idup (i : Slot) : M Slot := do
  modify fun s => s.setInode i { s.itable i with ref := (s.itable i).ref + 1 }
  return i

def acquiresleep (i : Slot) : M Unit := do
  let s ← get
  if (s.itable i).lock = none then
    set (s.setInode i { s.itable i with lock := some s.cur.val })
  else throw .deadlock

def releasesleep (i : Slot) : M Unit :=
  modify fun s => s.setInode i { s.itable i with lock := none }

def ilock (i : Slot) : M Unit := do
  if ((← get).itable i).ref < 1 then throw .ilock
  else
    acquiresleep i
    let s ← get
    if (s.itable i).valid then return
    else
      let din := sb.inode s.disk (s.itable i).inum
      set (s.setInode i { s.itable i with din := din, valid := true })
      if din.type = 0 then throw .ilockNoType

def iunlock (i : Slot) : M Unit := do
  let s ← get
  if (s.itable i).lock ≠ some s.cur.val ∨ (s.itable i).ref < 1 then throw .iunlock
  else releasesleep i

def addrOf (i : Slot) (k : Fin (ndirect + 1)) : M UInt32 := do
  let addr := ((← get).din i).addrs k
  if addr = 0 then
    let addr ← balloc sb
    if addr = 0 then return 0
    else
      modify fun s => s.setDin i ((s.din i).setAddr k addr)
      return addr
  else return addr

def bmap (i : Slot) (bn : Nat) : M UInt32 :=
  if h : bn < ndirect then addrOf sb i ⟨bn, by omega⟩
  else if bn - ndirect < nindirect then do
    let ind ← addrOf sb i (Fin.last ndirect)
    if ind = 0 then return 0
    else
      let addr := Bytes.get32 ((← get).disk ind.toNat) (4 * (bn - ndirect))
      if addr = 0 then
        let addr ← balloc sb
        if addr = 0 then return 0
        else
          modify fun s => s.setDisk (setBlock s.disk ind.toNat
            (Bytes.set32 (s.disk ind.toNat) (4 * (bn - ndirect)) addr))
          return addr
      else return addr
  else throw .bmapOutOfRange

def itruncDirect (i : Slot) : List (Fin (ndirect + 1)) → M Unit
  | [] => return
  | k :: ks => do
    let addr := ((← get).din i).addrs k
    if addr ≠ 0 then
      bfree sb addr
      modify fun s => s.setDin i ((s.din i).setAddr k 0)
    itruncDirect i ks

/-- The loop of `itrunc` over the addresses in the indirect block. -/
def itruncIndirect : List UInt32 → M Unit
  | [] => return
  | a :: as => do
    if a ≠ 0 then bfree sb a
    itruncIndirect as

def indirect (b : Block) : List UInt32 :=
  (List.range nindirect).map fun j => Bytes.get32 b (4 * j)

def itrunc (i : Slot) : M Unit := do
  itruncDirect sb i ((List.finRange ndirect).map Fin.castSucc)
  let s ← get
  let ind := (s.din i).addrs (Fin.last ndirect)
  if ind ≠ 0 then
    itruncIndirect sb (indirect (s.disk ind.toNat))
    bfree sb ind
    modify fun s => s.setDin i ((s.din i).setAddr (Fin.last ndirect) 0)
  modify fun s => s.setDin i { s.din i with size := 0 }
  iupdate sb i

def iput (i : Slot) : M Unit := do
  let ip := (← get).itable i
  if ip.ref = 1 ∧ ip.valid ∧ ip.din.nlink = 0 then
    acquiresleep i
    itrunc sb i
    modify fun s => s.setDin i { s.din i with type := 0 }
    iupdate sb i
    modify fun s => s.setInode i { s.itable i with valid := false }
    releasesleep i
  modify fun s => s.setInode i { s.itable i with ref := (s.itable i).ref - 1 }

def iunlockput (i : Slot) : M Unit := do
  iunlock i
  iput sb i

end Inodes

section Contents

variable (sb : Superblock)

def slice (b : Block) (o m : Nat) : List UInt8 := (List.range m).map fun k => Bytes.byteAt b (o + k)

/-- The loop of `readi`. `copyout tot m` says whether the destination takes the next `m` bytes; the
result is that of `readi`, and the bytes copied. -/
def readiLoop (i : Slot) (copyout : Nat → Nat → Bool) :
    Nat → Nat → Nat → Nat → List UInt8 → M (Int × List UInt8)
  | 0, tot, _, _, bytes => return (tot, bytes)
  | fuel + 1, tot, off, n, bytes =>
    if tot < n then do
      let addr ← bmap sb i (off / bsize)
      if addr = 0 then return (tot, bytes)
      else
        let m := min (n - tot) (bsize - off % bsize)
        let s ← get
        if copyout tot m then
          readiLoop i copyout fuel (tot + m) (off + m) n
            (bytes ++ slice (s.disk addr.toNat) (off % bsize) m)
        else return (-1, bytes)
    else return (tot, bytes)

def readi (i : Slot) (copyout : Nat → Nat → Bool) (off n : UInt32) : M (Int × List UInt8) := do
  let size := ((← get).din i).size
  if off > size ∨ off + n < off then return (0, [])
  else
    let n := if off + n > size then size - off else n
    readiLoop sb i copyout n.toNat 0 off.toNat n.toNat []

/-- The copy of `m` bytes of `src`, from `tot` on, to offset `o` of a block, up to the first
unreadable byte. -/
def copyin (src : Nat → Option UInt8) : Nat → Nat → Nat → Block → Block × Bool
  | 0, _, _, b => (b, true)
  | m + 1, tot, o, b =>
    match src tot with
    | none => (b, false)
    | some v => copyin src m (tot + 1) (o + 1) (Bytes.setByte b o v)

/-- The loop of `writei`; the result is `tot` and `off` at its end. -/
def writeiLoop (i : Slot) (src : Nat → Option UInt8) : Nat → Nat → Nat → Nat → M (Nat × Nat)
  | 0, tot, off, _ => return (tot, off)
  | fuel + 1, tot, off, n =>
    if tot < n then do
      let addr ← bmap sb i (off / bsize)
      if addr = 0 then return (tot, off)
      else
        let m := min (n - tot) (bsize - off % bsize)
        let s ← get
        let (data, copied) := copyin src m tot (off % bsize) (s.disk addr.toNat)
        -- what was copied stays in the buffer, also when it is not logged
        set (s.setDisk (setBlock s.disk addr.toNat data))
        if copied then writeiLoop i src fuel (tot + m) (off + m) n
        else return (tot, off)
    else return (tot, off)

def writei (i : Slot) (src : Nat → Option UInt8) (off n : UInt32) : M Int := do
  let size := ((← get).din i).size
  if off > size ∨ off + n < off then return -1
  else if (off + n).toNat > maxFile * bsize then return -1
  else
    let (tot, off) ← writeiLoop sb i src n.toNat 0 off.toNat n.toNat
    modify fun s =>
      if off > (s.din i).size.toNat then s.setDin i { s.din i with size := UInt32.ofNat off } else s
    iupdate sb i
    return tot

end Contents

section Directories

variable (sb : Superblock)

def cstr (bytes : List UInt8) : Name := bytes.takeWhile (· ≠ 0)

def namecmp (name : Name) (deName : List UInt8) : Bool := cstr (name.take dirsiz) = cstr deName

def deInum (de : List UInt8) : Nat := (de.getD 0 0).toNat + 256 * (de.getD 1 0).toNat

def deName (de : List UInt8) : List UInt8 := (de.drop 2).take dirsiz

/-- A `struct dirent` with `inum` and, by `strncpy`, `name` stored in it. -/
def dirent (inum : Nat) (name : Name) : List UInt8 :=
  [UInt8.ofNat inum, UInt8.ofNat (inum / 256)] ++ name.take dirsiz ++
    List.replicate (dirsiz - name.length) 0

/-- The entry at index `k` of directory `i`, read by `readi` to the kernel's memory. -/
def readDirent (i : Slot) (k : Nat) : M (Int × List UInt8) :=
  readi sb i (fun _ _ => true) (UInt32.ofNat (16 * k)) 16

/-- The number of iterations of a loop over the entries of a directory. -/
def direntCount (size : UInt32) : Nat := (size.toNat + 15) / 16

/-- The loop of `dirlookup`, with the entry's index in place of its offset. -/
def dirlookupLoop (i : Slot) (name : Name) : List Nat → M (Option (Slot × Nat))
  | [] => return none
  | k :: ks => do
    let (r, de) ← readDirent sb i k
    if r ≠ 16 then throw .dirlookupRead
    else if deInum de = 0 then dirlookupLoop i name ks
    else if namecmp name (deName de) then do
      let ip ← iget (deInum de)
      return some (ip, k)
    else dirlookupLoop i name ks

def dirlookup (i : Slot) (name : Name) : M (Option (Slot × Nat)) := do
  let din := (← get).din i
  if din.type ≠ tDir then throw .dirlookupNotDir
  else dirlookupLoop sb i name (List.range (direntCount din.size))

def dirlinkLoop (i : Slot) (last : Nat) : List Nat → M Nat
  | [] => return last
  | k :: ks => do
    let (r, de) ← readDirent sb i k
    if r ≠ 16 then throw .dirlinkRead
    else if deInum de = 0 then return k
    else dirlinkLoop i last ks

/-- The bytes of the kernel's memory as a source of `writei`. -/
def kernelSrc (bytes : List UInt8) : Nat → Option UInt8 := fun k => some (bytes.getD k 0)

def dirlink (i : Slot) (name : Name) (inum : Nat) : M Int := do
  match ← dirlookup sb i name with
  | some (ip, _) =>
    iput sb ip
    return -1
  | none =>
    let count := direntCount ((← get).din i).size
    let k ← dirlinkLoop sb i count (List.range count)
    let r ← writei sb i (kernelSrc (dirent inum name)) (UInt32.ofNat (16 * k)) 16
    return if r = 16 then 0 else -1

end Directories

section Paths

variable (sb : Superblock)

/-- A path, as a NUL-terminated string in the kernel's memory. -/
structure Path where
  bytes : List UInt8
  no_nul : 0 ∉ bytes

abbrev slash : UInt8 := 47

/-- `skipelem`: the next element of a path, cut to `DIRSIZ`, and the rest of the path. -/
def skipelem (path : List UInt8) : Option (Name × List UInt8) :=
  let path := path.dropWhile (· = slash)
  if path = [] then none
  else
    let elem := path.takeWhile (· ≠ slash)
    some (elem.take dirsiz, (path.dropWhile (· ≠ slash)).dropWhile (· = slash))

/-- The elements of a path, by `skipelem` at most `fuel` times. -/
def elements : Nat → List UInt8 → List Name
  | 0, _ => []
  | fuel + 1, path =>
    match skipelem path with
    | none => []
    | some (name, rest) => name :: elements fuel rest

/-- The loop of `namex` over the elements of the path, with the element before them. -/
def namexLoop (parent : Bool) : List Name → Slot → Name → M (Option (Slot × Name))
  | [], ip, name =>
    if parent then do
      iput sb ip
      return none
    else return some (ip, name)
  | name :: rest, ip, _ => do
    ilock sb ip
    if ((← get).din ip).type ≠ tDir then
      iunlockput sb ip
      return none
    else if parent ∧ rest = [] then
      iunlock ip
      return some (ip, name)
    else match ← dirlookup sb ip name with
      | none =>
        iunlockput sb ip
        return none
      | some (next, _) =>
        iunlockput sb ip
        namexLoop parent rest next name

def cwd : M Slot := do
  let s ← get
  return (s.cwd s.cur).getD 0

def namex (path : Path) (parent : Bool) : M (Option (Slot × Name)) := do
  let ip ← if path.bytes.head? = some slash then iget rootino else idup (← cwd)
  namexLoop sb parent (elements path.bytes.length path.bytes) ip []

def namei (path : Path) : M (Option Slot) := do
  return (← namex sb path false).map Prod.fst

def nameiparent (path : Path) : M (Option (Slot × Name)) := namex sb path true

end Paths

end Xv6.Fs
