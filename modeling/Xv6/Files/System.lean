import Xv6.Fs.Syscalls
import Xv6.Lib.Run

/-! Open files and the processes that have them: `kernel/file.c`, pipes, the system calls on files,
and the parts of `fork`, `thread_create`, `exit`, `wait` and `exec` that concern files and current
directories. A system call runs without another in between. -/

namespace Xv6.Files

open Function

open Fs (FdType Path tDir tFile tDevice)

structure File extends Fs.File where
  pipe : Nat

/-- The state of a process, as far as it has files: `UNUSED`, `ZOMBIE`, or another. -/
inductive Life
  | unused
  | live
  | zombie
  deriving DecidableEq, Repr

structure Ends where
  readopen : Bool
  writeopen : Bool
  deriving DecidableEq, Repr

/-- A page, with what it holds when it is a pipe. `allocs` and `frees` record how often it became
one and was freed. -/
structure Page where
  ends : Option Ends := none
  allocs : Nat := 0
  frees : Nat := 0
  deriving DecidableEq, Repr

/-- The disk and the inode table, the file table, and of the processes the state, `cwd` and `ofile`;
`cur` is the process in the kernel. -/
structure State where
  disk : Disk
  itable : Itable
  file : Fin nfile → File
  life : Fin nproc → Life
  cwd : Fin nproc → Option Slot
  ofile : Fin nproc × Fin nofile → Option (Fin nfile)
  pipe : Nat → Page
  cur : Fin nproc

/-- Where the system stops: a panic of the file system, a use of a pipe that has been freed, or of a
null pointer. -/
inductive Stop
  | fs (why : Fs.Stop)
  | freed
  | null
  deriving DecidableEq, Repr

abbrev M (α : Type) : Type := StateT State (Except Stop) α

namespace State

variable (s : State)

def setFile (f : Fin nfile) (v : File) : State := { s with file := update s.file f v }

def setPipe (pi : Nat) (v : Page) : State := { s with pipe := update s.pipe pi v }

def setLife (p : Fin nproc) (v : Life) : State := { s with life := update s.life p v }

def setCwd (p : Fin nproc) (c : Option Slot) : State := { s with cwd := update s.cwd p c }

def setOfile (p : Fin nproc) (fd : Fin nofile) (f : Option (Fin nfile)) : State :=
  { s with ofile := update s.ofile (p, fd) f }

/-- The part of the state that the functions on inodes see. -/
def toFs : Fs.State where
  disk := s.disk
  itable := s.itable
  ftable := fun f => (s.file f).toFile
  cwd := s.cwd
  cur := s.cur

/-- The state with the disk and the inode table of `t`. -/
def withFs (t : Fs.State) : State := { s with disk := t.disk, itable := t.itable }

end State

/-- A function on inodes, which leaves files and processes alone. -/
def onFs {α : Type} (m : Fs.M α) : M α := fun s =>
  match m s.toFs with
  | .ok (a, t) => .ok (a, s.withFs t)
  | .error e => .error (.fs e)

section Files

variable (sb : Superblock)

/-- `filealloc`: the first entry of the file table without references gets one. -/
def filealloc : M (Option (Fin nfile)) := do
  let s ← get
  match (List.finRange nfile).find? fun f => (s.file f).ref = 0 with
  | some f =>
    set (s.setFile f { s.file f with ref := 1 })
    return some f
  | none => return none

/-- `filedup`; a file without references is a panic. -/
def filedup (f : Fin nfile) : M Unit := do
  let s ← get
  if (s.file f).ref < 1 then throw (.fs .filedup)
  else set (s.setFile f { s.file f with ref := (s.file f).ref + 1 })

/-- `pipeclose`; the page `pi` is freed with the second end. -/
def pipeclose (pi : Nat) (writable : Bool) : M Unit := do
  let s ← get
  match (s.pipe pi).ends with
  | none => throw .freed
  | some ends =>
    let ends := if writable then { ends with writeopen := false } else { ends with readopen := false }
    if ends.readopen = false ∧ ends.writeopen = false then
      set (s.setPipe pi { s.pipe pi with ends := none, frees := (s.pipe pi).frees + 1 })
    else set (s.setPipe pi { s.pipe pi with ends := some ends })

/-- `fileclose`: with its last reference the file gives up its pipe end or its inode. -/
def fileclose (f : Fin nfile) : M Unit := do
  let s ← get
  let ff := s.file f
  if ff.ref < 1 then throw (.fs .fileclose)
  else if ff.ref - 1 > 0 then set (s.setFile f { ff with ref := ff.ref - 1 })
  else
    set (s.setFile f { ff with ref := 0, type := .none })
    if ff.type = .pipe then pipeclose ff.pipe ff.writable
    else if ff.type = .inode ∨ ff.type = .device then onFs (Fs.iput sb ff.ip)

/-- `pipealloc`; `page` is what `kalloc` returns. -/
def pipealloc (page : Option Nat) : M (Option (Fin nfile × Fin nfile)) := do
  match ← filealloc with
  | none => return none
  | some f0 =>
    match ← filealloc with
    | none =>
      fileclose sb f0
      return none
    | some f1 =>
      match page with
      | none =>
        fileclose sb f0
        fileclose sb f1
        return none
      | some pi =>
        modify fun s => s.setPipe pi
          { s.pipe pi with ends := some ⟨true, true⟩, allocs := (s.pipe pi).allocs + 1 }
        modify fun s => s.setFile f0
          { s.file f0 with type := .pipe, readable := true, writable := false, pipe := pi }
        modify fun s => s.setFile f1
          { s.file f1 with type := .pipe, readable := false, writable := true, pipe := pi }
        return some (f0, f1)

end Files

section Calls

variable (sb : Superblock)

theorem argfd_lt {fd : Int} (h : 0 ≤ fd ∧ fd < nofile) : fd.toNat < nofile := by omega

/-- `argfd`: the descriptor, if the current process has it open, and its file. -/
def argfd (fd : Int) : M (Option (Fin nofile × Fin nfile)) := do
  let s ← get
  if h : 0 ≤ fd ∧ fd < nofile then
    let fd : Fin nofile := ⟨fd.toNat, argfd_lt h⟩
    return (s.ofile (s.cur, fd)).map fun f => (fd, f)
  else return none

/-- `fdalloc`: the first free descriptor of the current process. -/
def fdalloc (f : Fin nfile) : M (Option (Fin nofile)) := do
  let s ← get
  match (List.finRange nofile).find? fun fd => (s.ofile (s.cur, fd)).isNone with
  | some fd =>
    set (s.setOfile s.cur fd (some f))
    return some fd
  | none => return none

/-- `p->ofile[fd] = 0`. -/
def clearfd (fd : Fin nofile) : M Unit := modify fun s => s.setOfile s.cur fd none

def sysDup (fd : Int) : M Int := do
  match ← argfd fd with
  | none => return -1
  | some (_, f) =>
    match ← fdalloc f with
    | none => return -1
    | some fd =>
      filedup f
      return fd.val

def sysClose (fd : Int) : M Int := do
  match ← argfd fd with
  | none => return -1
  | some (fd, f) =>
    clearfd fd
    fileclose sb f
    return 0

/-- `sys_pipe`; `copyout` says whether the user's memory takes both descriptors. -/
def sysPipe (page : Option Nat) (copyout : Bool) : M Int := do
  match ← pipealloc sb page with
  | none => return -1
  | some (rf, wf) =>
    match ← fdalloc rf with
    | none =>
      fileclose sb rf
      fileclose sb wf
      return -1
    | some fd0 =>
      match ← fdalloc wf with
      | none =>
        clearfd fd0
        fileclose sb rf
        fileclose sb wf
        return -1
      | some fd1 =>
        if copyout then return 0
        else
          clearfd fd0
          clearfd fd1
          fileclose sb rf
          fileclose sb wf
          return -1

/-- The argument `omode` of `sys_open`, with the flags of `fcntl.h`. -/
structure Omode where
  bits : UInt32

namespace Omode

variable (m : Omode)

def wronly : Bool := m.bits &&& 0x001 ≠ 0

def rdwr : Bool := m.bits &&& 0x002 ≠ 0

def create : Bool := m.bits &&& 0x200 ≠ 0

def trunc : Bool := m.bits &&& 0x400 ≠ 0

end Omode

/-- `sys_open` from the check of the device number on, for the locked inode `ip`. -/
def openInode (ip : Slot) (omode : Omode) : M Int := do
  let din := ((← get).itable ip).din
  if din.type = tDevice ∧ (din.major < 0 ∨ din.major ≥ Int16.ofNat ndev) then
    onFs (Fs.iunlockput sb ip)
    return -1
  else match ← filealloc with
  | none =>
    onFs (Fs.iunlockput sb ip)
    return -1
  | some f =>
    match ← fdalloc f with
    | none =>
      fileclose sb f
      onFs (Fs.iunlockput sb ip)
      return -1
    | some fd =>
      modify fun s => s.setFile f { s.file f with
        type := if din.type = tDevice then .device else .inode
        major := if din.type = tDevice then din.major else (s.file f).major
        off := if din.type = tDevice then (s.file f).off else 0
        ip := ip
        readable := !omode.wronly
        writable := omode.wronly || omode.rdwr }
      if omode.trunc ∧ din.type = tFile then onFs (Fs.itrunc sb ip)
      onFs (Fs.iunlock ip)
      return fd.val

/-- `sys_open`; a directory is opened only with the mode `O_RDONLY`. -/
def sysOpen (path : Option Path) (omode : Omode) : M Int := do
  match path with
  | none => return -1
  | some path =>
    if omode.create then
      match ← onFs (Fs.create sb path tFile 0 0) with
      | none => return -1
      | some ip => openInode sb ip omode
    else
      match ← onFs (Fs.namei sb path) with
      | none => return -1
      | some ip =>
        onFs (Fs.ilock sb ip)
        if ((← get).itable ip).din.type = tDir ∧ omode.bits ≠ 0 then
          onFs (Fs.iunlockput sb ip)
          return -1
        else openInode sb ip omode

/-- `myproc()->cwd`. -/
def cwd : M Slot := do
  let s ← get
  match s.cwd s.cur with
  | some c => return c
  | none => throw .null

/-- `sys_chdir`: the reference of the old directory is given back. -/
def sysChdir (path : Option Path) : M Int := do
  match path with
  | none => return -1
  | some path =>
    match ← onFs (Fs.namei sb path) with
    | none => return -1
    | some ip =>
      onFs (Fs.ilock sb ip)
      if ((← get).itable ip).din.type ≠ tDir then
        onFs (Fs.iunlockput sb ip)
        return -1
      else
        onFs (Fs.iunlock ip)
        let old ← cwd
        onFs (Fs.iput sb old)
        modify fun s => s.setCwd s.cur (some ip)
        return 0

/-- The loop of `fork` that duplicates the open files for the child `np`. -/
def forkFiles (np : Fin nproc) : List (Fin nofile) → M Unit
  | [] => return
  | fd :: fds => do
    let s ← get
    match s.ofile (s.cur, fd) with
    | some f =>
      filedup f
      modify fun s => s.setOfile np fd (some f)
    | none => pure ()
    forkFiles np fds

/-- `fork`; `ok` says whether `allocproc` and `uvmcopy` get their memory. -/
def fork (ok : Bool) : M Int := do
  let s ← get
  match (List.finRange nproc).find? fun p => s.life p = .unused with
  | none => return -1
  | some np =>
    if ok then
      forkFiles np (List.finRange nofile)
      let c ← onFs (Fs.idup (← cwd))
      modify fun s => (s.setCwd np (some c)).setLife np .live
      return np.val
    else return -1

/-- `thread_create`; `ok` says whether `allocthread` gets its memory. -/
def threadCreate (fn stack : UInt64) (ok : Bool) : M Int := do
  if fn = 0 ∨ stack = 0 then return -1
  else
    let s ← get
    match (List.finRange nproc).find? fun p => s.life p = .unused with
    | none => return -1
    | some np =>
      if ok then
        let c ← onFs (Fs.idup (← cwd))
        modify fun s => (s.setCwd np (some c)).setLife np .live
        return np.val
      else return -1

/-- The loop of `exit` that closes all files. -/
def exitFiles : List (Fin nofile) → M Unit
  | [] => return
  | fd :: fds => do
    let s ← get
    match s.ofile (s.cur, fd) with
    | some f =>
      fileclose sb f
      clearfd fd
    | none => pure ()
    exitFiles fds

/-- `exit`; the first process is `initproc`. -/
def exit : M Int := do
  if (← get).cur = 0 then throw (.fs .initExiting)
  else
    exitFiles sb (List.finRange nofile)
    let c ← cwd
    onFs (Fs.iput sb c)
    modify fun s => (s.setCwd s.cur none).setLife s.cur .zombie
    return 0

/-- The part of `wait` that frees the zombie `pp`. -/
def wait (pp : Fin nproc) : M Int := do
  let s ← get
  if s.life pp = .zombie then
    set (s.setLife pp .unused)
    return 0
  else return -1

end Calls

/-- A system call, with its arguments and with what `kalloc` and `copyout` give it. A path that is
not in the user's memory, or too long, is `none`. -/
inductive Call
  | open (path : Option Path) (omode : Omode)
  | dup (fd : Int)
  | pipe (page : Option Nat) (copyout : Bool)
  | close (fd : Int)
  | fork (ok : Bool)
  | threadCreate (fn stack : UInt64) (ok : Bool)
  | chdir (path : Option Path)
  | exec (path : Option Path) (reads : List (UInt32 × UInt32))
  | exit
  | wait (pp : Fin nproc)

def syscall (sb : Superblock) : Call → M Int
  | .open path omode => sysOpen sb path omode
  | .dup fd => sysDup fd
  | .pipe page copyout => sysPipe sb page copyout
  | .close fd => sysClose sb fd
  | .fork ok => fork ok
  | .threadCreate fn stack ok => threadCreate fn stack ok
  | .chdir path => sysChdir sb path
  | .exec path reads => onFs (Fs.exec sb path reads)
  | .exit => exit sb
  | .wait pp => wait pp

structure Label where
  p : Fin nproc
  call : Call

def Call.page : Call → Option Nat
  | .pipe page _ => page
  | _ => none

def State.run (sb : Superblock) (l : Label) (s : State) : Except Stop (Int × State) :=
  syscall sb l.call { s with cur := l.p }

/-- The calls that can be made: by a process, and with a page from `kalloc` that is not in use. -/
def State.Enabled (s : State) (l : Label) : Prop :=
  s.life l.p = .live ∧ l.call.page.all fun pi => (s.pipe pi).ends.isNone

instance (s : State) (l : Label) : Decidable (s.Enabled l) := inferInstanceAs (Decidable (_ ∧ _))

def step (sb : Superblock) (l : Label) (s : State) : Option State :=
  if s.Enabled l then
    match s.run sb l with
    | .ok (_, s') => some s'
    | .error _ => none
  else none

/-- The state in which the first process starts, on the disk `d`: its current directory is the
root, which is not yet read. -/
def boot (d : Disk) : State where
  disk := d
  itable := update Itable.init 0
    { Itable.init 0 with dev := rootdev, inum := rootino, ref := 1 }
  file := fun _ => ⟨⟨.none, 0, false, false, 0, 0, 0⟩, 0⟩
  life := update (fun _ => .unused) 0 .live
  cwd := update (fun _ => none) 0 (some 0)
  ofile := fun _ => none
  pipe := fun _ => {}
  cur := 0

abbrev Reach (sb : Superblock) (d : Disk) : State → Prop :=
  Transition.Reach (step sb) (fun _ _ => True) (boot d)

end Xv6.Files
