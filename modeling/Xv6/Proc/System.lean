import Xv6.Vm.PageTable
import Xv6.Kernel.Table

/-! The calls that allocate and free memory, over the process table. A call runs without another in
between. The file system is modelled elsewhere: `exec` is given the contents of the file. -/

namespace Xv6.Proc

open Kernel Vm Transition Function

variable {n : Nat}

/-- The fields of `struct proc` about memory and files. `p->stack` is never assigned, so `freeproc`
never frees it. -/
structure Image where
  kstack : UInt64
  sz : UInt64
  pagetable : Option Addr
  trapframe : Option Addr
  ofile : Fin nofile → Option (Fin nfile)

/-- `struct file`; `pipe` is the pipe and whether the file is its end for writing, when the type is
`FD_PIPE`. -/
structure File where
  ref : Nat
  pipe : Option (Addr × Bool)

structure Ends where
  readopen : Bool
  writeopen : Bool

structure State (n : Nat) where
  table : Table n
  image : Fin n → Image
  mem : Mem
  ftable : Fin nfile → File
  pipe : Addr → Ends

abbrev P (n : Nat) (α : Type) : Type := StateT (State n) (Except Stop) α

namespace State

variable (s : State n)

def proc (p : Fin n) : Kernel.Proc n := s.table.proc p

def setTable (t : Table n) : State n := { s with table := t }

def setState (p : Fin n) (st : ProcState) : State n :=
  s.setTable (s.table.set p { s.proc p with state := st })

def setImage (p : Fin n) (im : Image) : State n := { s with image := update s.image p im }

def setMem (m : Mem) : State n := { s with mem := m }

def setFile (f : Fin nfile) (v : File) : State n := { s with ftable := update s.ftable f v }

def setPipe (pi : Addr) (e : Ends) : State n := { s with pipe := update s.pipe pi e }

def setOfile (p : Fin n) (fd : Fin nofile) (f : Option (Fin nfile)) : State n :=
  s.setImage p { s.image p with ofile := update (s.image p).ofile fd f }

/-- `p->pagetable` and `p->trapframe`, as the addresses that they are. -/
def pagetable (p : Fin n) : Addr := (s.image p).pagetable.getD 0

def trapframe (p : Fin n) : Addr := (s.image p).trapframe.getD 0

end State

def onMem {α : Type} (m : M α) : P n α := fun s => do
  let (a, mem) ← m s.mem
  return (a, s.setMem mem)

abbrev tfEpc : Fin 512 := 3
abbrev tfSp : Fin 512 := 6
abbrev tfA0 : Fin 512 := 14
abbrev tfA1 : Fin 512 := 15

def setTrapframe (p : Fin n) (f : Fin 512) (v : UInt64) : P n Unit := do
  let s ← get
  onMem (store (s.trapframe p, f) v)

/-- `*np->trapframe = *p->trapframe`, an assignment of 36 words. -/
def copyTrapframe (np p : Fin n) : P n Unit := do
  let s ← get
  onMem (modify fun m => m.setPage (s.trapframe np) fun i =>
    if i.val < 36 then m.word (s.trapframe p) i else m.word (s.trapframe np) i)

section Processes

variable (k : Symbols)

def freeproc (p : Fin n) : P n Unit := do
  match ((← get).image p).trapframe with
  | some tf => onMem (kfree k tf)
  | none => pure ()
  modify fun s => s.setImage p { s.image p with trapframe := none }
  match ((← get).image p).pagetable with
  | some pt => onMem (procFreepagetable k pt ((← get).image p).sz)
  | none => pure ()
  modify fun s =>
    (s.setImage p { s.image p with pagetable := none, sz := 0 }).setTable (s.table.freeproc p)

def allocproc : P n (Option (Fin n)) := do
  match (← get).table.findUnused with
  | none => return none
  | some p =>
    modify fun s => s.setTable (s.table.take p)
    let tf ← onMem kalloc
    modify fun s => s.setImage p { s.image p with trapframe := tf }
    match tf with
    | none =>
      freeproc k p
      return none
    | some tf =>
      let pt ← onMem (procPagetable k tf)
      modify fun s => s.setImage p { s.image p with pagetable := pt }
      match pt with
      | none =>
        freeproc k p
        return none
      | some _ => return some p

def userinit (initcode : List UInt8) : P n Unit := do
  match ← allocproc k with
  | none => throw .nullPointer
  | some p =>
    modify fun s => s.setTable { s.table with initproc := p }
    onMem (uvmfirst ((← get).pagetable p) initcode)
    modify fun s => s.setImage p { s.image p with sz := pgsize }
    setTrapframe p tfEpc 0
    setTrapframe p tfSp pgsize
    modify fun s => s.setState p .runnable

/-- `growproc` for the caller `p`; whether it returns 0. -/
def growproc (p : Fin n) (i : Int32) : P n Bool := do
  let s ← get
  let sz := (s.image p).sz
  if 0 < i then
    let sz ← onMem (uvmalloc k (s.pagetable p) sz (sz + i.toInt64.toUInt64) pteW)
    if sz = 0 then return false
    else
      modify fun s => s.setImage p { s.image p with sz := sz }
      return true
  else if i < 0 then
    let sz ← onMem (uvmdealloc k (s.pagetable p) sz (sz + i.toInt64.toUInt64))
    modify fun s => s.setImage p { s.image p with sz := sz }
    return true
  else
    modify fun s => s.setImage p { s.image p with sz := sz }
    return true

end Processes

section Files

variable (k : Symbols)

def filealloc : P n (Option (Fin nfile)) := do
  let s ← get
  match (List.finRange nfile).find? fun f => (s.ftable f).ref = 0 with
  | none => return none
  | some f =>
    set (s.setFile f { s.ftable f with ref := 1 })
    return some f

def filedup (f : Fin nfile) : P n Unit := do
  let s ← get
  if (s.ftable f).ref < 1 then throw .filedup
  else set (s.setFile f { s.ftable f with ref := (s.ftable f).ref + 1 })

def pipeclose (pi : Addr) (writable : Bool) : P n Unit := do
  let s ← get
  let e := if writable then { s.pipe pi with writeopen := false }
    else { s.pipe pi with readopen := false }
  set (s.setPipe pi e)
  if ¬e.readopen ∧ ¬e.writeopen then onMem (kfree k pi) else return

def fileclose (f : Fin nfile) : P n Unit := do
  let s ← get
  let ff := s.ftable f
  if ff.ref < 1 then throw .fileclose
  else if 1 < ff.ref then set (s.setFile f { ff with ref := ff.ref - 1 })
  else
    set (s.setFile f { ref := 0, pipe := none })
    match ff.pipe with
    | some (pi, writable) => pipeclose k pi writable
    | none => return

/-- `pipealloc`; the files for reading and for writing. -/
def pipealloc : P n (Option (Fin nfile × Fin nfile)) := do
  match ← filealloc with
  | none => return none
  | some f0 =>
    match ← filealloc with
    | none =>
      fileclose k f0
      return none
    | some f1 =>
      match ← onMem kalloc with
      | none =>
        fileclose k f0
        fileclose k f1
        return none
      | some pi =>
        modify fun s =>
          ((s.setPipe pi ⟨true, true⟩).setFile f0 { s.ftable f0 with pipe := some (pi, false) }).setFile
            f1 { s.ftable f1 with pipe := some (pi, true) }
        return some (f0, f1)

def fdalloc (p : Fin n) (f : Fin nfile) : P n (Option (Fin nofile)) := do
  let s ← get
  match (List.finRange nofile).find? fun fd => ((s.image p).ofile fd).isNone with
  | none => return none
  | some fd =>
    set (s.setOfile p fd (some f))
    return some fd

def leBytes (v : Nat) : Nat → List UInt8
  | 0 => []
  | width + 1 => UInt8.ofNat v :: leBytes (v / 256) width

/-- `sys_pipe`; whether it returns 0. -/
def sysPipe (p : Fin n) (fdarray : UInt64) : P n Bool := do
  match ← pipealloc k with
  | none => return false
  | some (rf, wf) =>
    match ← fdalloc p rf with
    | none =>
      fileclose k rf
      fileclose k wf
      return false
    | some fd0 =>
      match ← fdalloc p wf with
      | none =>
        modify fun s => s.setOfile p fd0 none
        fileclose k rf
        fileclose k wf
        return false
      | some fd1 =>
        let pt := (← get).pagetable p
        if ← onMem (do
            if ← copyout pt fdarray (leBytes fd0.val 4) then
              copyout pt (fdarray + 4) (leBytes fd1.val 4)
            else return false) then
          return true
        else
          modify fun s => (s.setOfile p fd0 none).setOfile p fd1 none
          fileclose k rf
          fileclose k wf
          return false

/-- `sys_close`; whether it returns 0. -/
def sysClose (p : Fin n) (fd : Fin nofile) : P n Bool := do
  let s ← get
  match (s.image p).ofile fd with
  | none => return false
  | some f =>
    set (s.setOfile p fd none)
    fileclose k f
    return true

end Files

section Exec

variable (k : Symbols)

def le (b : List UInt8) (off : Nat) : Nat → Nat
  | 0 => 0
  | width + 1 => (b.getD off 0).toNat + 256 * le b (off + 1) width

def readi (file : List UInt8) (off n : UInt32) : List UInt8 :=
  if off + n < off then [] else (file.drop off.toNat).take n.toNat

abbrev elfMagic : Nat := 0x464C457F

abbrev maxArg : Nat := 32

abbrev userStack : UInt64 := 1

structure Proghdr where
  type : UInt32
  flags : UInt32
  off : UInt64
  vaddr : UInt64
  filesz : UInt64
  memsz : UInt64

def Proghdr.ofBytes (b : List UInt8) : Proghdr where
  type := UInt32.ofNat (le b 0 4)
  flags := UInt32.ofNat (le b 4 4)
  off := UInt64.ofNat (le b 8 8)
  vaddr := UInt64.ofNat (le b 16 8)
  filesz := UInt64.ofNat (le b 32 8)
  memsz := UInt64.ofNat (le b 40 8)

def flags2perm (flags : UInt32) : UInt64 :=
  (if flags &&& 1 ≠ 0 then pteX else 0) ||| (if flags &&& 2 ≠ 0 then pteW else 0)

def loadsegLoop (file : List UInt8) (pagetable : Addr) (va : UInt64) (offset sz : UInt32) :
    Nat → UInt32 → M Bool
  | 0, _ => return true
  | fuel + 1, i =>
    if i < sz then do
      let pa ← walkaddr pagetable (va + i.toUInt64)
      if pa = 0 then throw .loadseg
      else
        let n := if sz - i < 4096 then sz - i else 4096
        let bytes := readi file (offset + i) n
        modify fun m => m.setPage pa (writeBytes (m.word pa) 0 bytes)
        if bytes.length ≠ n.toNat then return false
        else loadsegLoop file pagetable va offset sz fuel (i + 4096)
    else return true

def loadseg (file : List UInt8) (pagetable : Addr) (va : UInt64) (offset sz : UInt32) : M Bool :=
  loadsegLoop file pagetable va offset sz (sz.toNat / 4096 + 1) 0

/-- The loop of `exec` over the program headers, with `sz` when it ends and whether it ends well. -/
def execLoad (file : List UInt8) (pagetable : Addr) : Nat → UInt32 → UInt64 → M (Bool × UInt64)
  | 0, _, sz => return (true, sz)
  | phnum + 1, off, sz => do
    let bytes := readi file off 56
    let ph := Proghdr.ofBytes bytes
    if bytes.length ≠ 56 then return (false, sz)
    else if ph.type ≠ 1 then execLoad file pagetable phnum (off + 56) sz
    else if ph.memsz < ph.filesz then return (false, sz)
    else if ph.vaddr + ph.memsz < ph.vaddr then return (false, sz)
    else if ph.vaddr % pgsize ≠ 0 then return (false, sz)
    else
      let sz1 ← uvmalloc k pagetable sz (ph.vaddr + ph.memsz) (flags2perm ph.flags)
      if sz1 = 0 then return (false, sz)
      else if ← loadseg file pagetable ph.vaddr ph.off.toUInt32 ph.filesz.toUInt32 then
        execLoad file pagetable phnum (off + 56) sz1
      else return (false, sz1)

/-- The loop of `exec` over the arguments: the stack pointer and the addresses of the strings. -/
def execArgs (pagetable : Addr) (stackbase : UInt64) :
    List (List UInt8) → UInt64 → List UInt64 → M (Option (UInt64 × List UInt64))
  | [], sp, ustack => return some (sp, ustack)
  | arg :: argv, sp, ustack => do
    if maxArg ≤ ustack.length then return none
    else
      let sp := sp - (UInt64.ofNat arg.length + 1)
      let sp := sp - sp % 16
      if sp < stackbase then return none
      else if ← copyout pagetable sp (arg ++ [0]) then
        execArgs pagetable stackbase argv sp (ustack ++ [sp])
      else return none

/-- `exec` from the allocation of the stack to the push of `argv[]`: the size, and the stack pointer
if it ends well. -/
def execStack (pagetable : Addr) (sz : UInt64) (argv : List (List UInt8)) :
    M (UInt64 × Option UInt64) := do
  let sz := pgroundup sz
  let sz1 ← uvmalloc k pagetable sz (sz + (userStack + 1) * pgsize) pteW
  if sz1 = 0 then return (sz, none)
  else
    uvmclear pagetable (sz1 - (userStack + 1) * pgsize)
    let stackbase := sz1 - userStack * pgsize
    match ← execArgs pagetable stackbase argv sz1 [] with
    | none => return (sz1, none)
    | some (sp, ustack) =>
      let sp := sp - (UInt64.ofNat ustack.length + 1) * 8
      let sp := sp - sp % 16
      if sp < stackbase then return (sz1, none)
      else if ← copyout pagetable sp ((ustack ++ [0]).flatMap fun a : UInt64 => leBytes a.toNat 8) then
        return (sz1, some sp)
      else return (sz1, none)

/-- The new image of `exec` in the empty page table: its size, and the stack pointer if all goes
well. -/
def execImage (file elf : List UInt8) (pagetable : Addr) (argv : List (List UInt8)) :
    M (UInt64 × Option UInt64) := do
  let (ok, sz) ← execLoad k file pagetable (le elf 56 2) (UInt32.ofNat (le elf 32 8)) 0
  if ok then execStack k pagetable sz argv else return (sz, none)

/-- `exec` of the file that `namei` finds; `argc`, or `none` for -1. -/
def exec (p : Fin n) (file : Option (List UInt8)) (argv : List (List UInt8)) : P n (Option Nat) := do
  match file with
  | none => return none
  | some file =>
    let elf := readi file 0 64
    if elf.length ≠ 64 then return none
    else if le elf 0 4 ≠ elfMagic then return none
    else
      match ← onMem (procPagetable k ((← get).trapframe p)) with
      | none => return none
      | some pagetable =>
        match ← onMem (execImage k file elf pagetable argv) with
        | (sz, none) =>
          onMem (procFreepagetable k pagetable sz)
          return none
        | (sz, some sp) =>
          setTrapframe p tfA1 sp
          let s ← get
          set (s.setImage p { s.image p with pagetable := some pagetable, sz := sz })
          setTrapframe p tfEpc (UInt64.ofNat (le elf 24 8))
          setTrapframe p tfSp sp
          onMem (procFreepagetable k (s.pagetable p) (s.image p).sz)
          return some argv.length

/-- What `sys_exec` gets for an entry of `argv`: no address, no string there, or a string. -/
inductive Arg
  | badAddr
  | badStr
  | str (s : List UInt8)

/-- The loop of `sys_exec` over its arguments, which end with a null pointer: whether it ends well,
and the pages with their strings. -/
def fetchArgs : List Arg → List (Addr × List UInt8) → M (Bool × List (Addr × List UInt8))
  | [], argv => return (argv.length < maxArg, argv)
  | arg :: args, argv => do
    if maxArg ≤ argv.length then return (false, argv)
    else
      match arg with
      | .badAddr => return (false, argv)
      | .badStr =>
        match ← kalloc with
        | none => return (false, argv)
        | some page => return (false, argv ++ [(page, [])])
      | .str s =>
        match ← kalloc with
        | none => return (false, argv)
        | some page => fetchArgs args (argv ++ [(page, s)])

def sysExec (p : Fin n) (file : Option (List UInt8)) (args : List Arg) : P n (Option Nat) := do
  let (ok, argv) ← onMem (fetchArgs args [])
  if ok then
    let ret ← exec k p file (argv.map Prod.snd)
    onMem (argv.forM fun a => kfree k a.1)
    return ret
  else
    onMem (argv.forM fun a => kfree k a.1)
    return none

end Exec

section Calls

variable (k : Symbols)

/-- `fork` by `p`; the pid, or `none` for -1. -/
def fork (p : Fin n) : P n (Option UInt32) := do
  match ← allocproc k with
  | none => return none
  | some np =>
    let s ← get
    if ← onMem (uvmcopy k (s.pagetable p) (s.pagetable np) (s.image p).sz) then
      modify fun s => s.setImage np { s.image np with sz := (s.image p).sz }
      copyTrapframe np p
      setTrapframe np tfA0 0
      (List.finRange nofile).forM fun fd => do
        match ((← get).image p).ofile fd with
        | some f =>
          filedup f
          modify fun s => s.setOfile np fd (some f)
        | none => return
      modify fun s => s.setTable
        (s.table.set np { s.proc np with parent := some p, state := .runnable })
      return some (s.proc np).pid
    else
      freeproc k np
      return none

def exit (p : Fin n) (status : UInt32) : P n Unit := do
  if p = (← get).table.initproc then throw .initExiting
  else
    (List.finRange nofile).forM fun fd => do
      match ((← get).image p).ofile fd with
      | some f =>
        fileclose k f
        modify fun s => s.setOfile p fd none
      | none => return
    modify fun s => s.setTable (s.table.exit p status)

/-- `wait` by `p`, up to its return or its `sleep`. -/
def wait (p : Fin n) (addr : UInt64) : P n (Option UInt32) := do
  let s ← get
  match s.table.findZombie p with
  | some pp =>
    if ← (if addr ≠ 0 then onMem (copyout (s.pagetable p) addr (leBytes (s.proc pp).xstate.toNat 4))
        else return true) then
      freeproc k pp
      return some (s.proc pp).pid
    else return none
  | none =>
    if ¬s.table.havekids p ∨ (s.proc p).killed then return none
    else
      set (s.setTable (s.table.set p { s.proc p with chan := some (.proc p), state := .sleeping }))
      return none

def allocthread (parent : Fin n) : P n (Option (Fin n)) := do
  match (← get).table.findUnused with
  | none => return none
  | some p =>
    modify fun s => s.setTable (s.table.takeThread parent p)
    let kstack ← onMem kalloc
    modify fun s => s.setImage p { s.image p with kstack := kstack.getD 0 }
    match kstack with
    | none =>
      freeproc k p
      return none
    | some _ =>
      let tf ← onMem kalloc
      modify fun s => s.setImage p { s.image p with trapframe := tf }
      match tf with
      | none =>
        freeproc k p
        return none
      | some _ =>
        modify fun s =>
          (s.setImage p
            { s.image p with pagetable := (s.image parent).pagetable, sz := (s.image parent).sz }).setTable
            (s.table.set p
              { s.proc p with threadParent := some parent, killed := false, xstate := 0 })
        return some p

def threadCreate (p : Fin n) (fn arg stack : UInt64) : P n (Option UInt32) := do
  if fn = 0 ∨ stack = 0 then return none
  else
    match ← allocthread k p with
    | none => return none
    | some np =>
      let s ← get
      if (s.image np).trapframe = none then
        freeproc k np
        return none
      else
        copyTrapframe np p
        setTrapframe np tfA0 arg
        setTrapframe np tfSp stack
        setTrapframe np tfEpc fn
        modify fun s => s.setState np .runnable
        return some (s.proc np).pid

/-- `thread_join` by `p`, up to the free; `copyout` copies the status and the four bytes of the pid
after it. -/
def threadJoin (p : Fin n) (retval : UInt64) : P n (Option (Fin n)) := do
  let s ← get
  match s.table.findThread p with
  | none => return none
  | some pp =>
    if ← (if retval ≠ 0 then onMem (copyout (s.pagetable p) retval
          (leBytes (s.proc pp).xstate.toNat 4 ++ leBytes (s.proc pp).pid.toNat 4))
        else return true) then
      freeproc k pp
      return some pp
    else return none

theorem reg_lt {i : Fin 512} (h : 5 ≤ i.val ∧ i.val < 36) : i.val - 5 < 31 := by omega

theorem slot_lt (i : Fin 31) : i.val + 5 < 512 := by omega

/-- `uservec` of `trampoline.S` on a trap of `p`: the registers from `ra` on go to the page that the
page table of `p` maps at `TRAPFRAME`. -/
def uservec (p : Fin n) (regs : Fin 31 → UInt64) : P n Unit := do
  let s ← get
  onMem do
    match ← walk (s.pagetable p) trapframeVa false with
    | none => throw .nullPointer
    | some pte =>
      let v ← load pte
      if v &&& pteV = 0 then throw .nullPointer
      else modify fun m => m.setPage (pte2pa v) fun i =>
        if h : 5 ≤ i.val ∧ i.val < 36 then regs ⟨i.val - 5, reg_lt h⟩ else m.word (pte2pa v) i

/-- A store of the program of `p` to its memory. -/
def userStore (p : Fin n) (va : UInt64) (b : UInt8) : P n Unit := do
  let s ← get
  let _ ← onMem (copyout (s.pagetable p) va [b])

end Calls

/-- The calls, with the process that makes them, a trap and a store of a process in user space, and
the choices of the scheduler. -/
inductive Label (n : Nat)
  | pick (p : Fin n)
  | yield (p : Fin n)
  | trap (p : Fin n) (regs : Fin 31 → UInt64)
  | store (p : Fin n) (va : UInt64) (b : UInt8)
  | fork (p : Fin n)
  | exec (p : Fin n) (file : Option (List UInt8)) (args : List Arg)
  | sbrk (p : Fin n) (i : Int32)
  | pipe (p : Fin n) (fdarray : UInt64)
  | close (p : Fin n) (fd : Fin nofile)
  | exit (p : Fin n) (status : UInt32)
  | wait (p : Fin n) (addr : UInt64)
  | threadCreate (p : Fin n) (fn arg stack : UInt64)
  | threadJoin (p : Fin n) (retval : UInt64)

namespace Label

def proc : Label n → Fin n
  | pick p | yield p | trap p _ | store p _ _ | fork p | exec p _ _ | sbrk p _ | pipe p _
  | close p _ | exit p _ | wait p _ | threadCreate p _ _ _ | threadJoin p _ => p

def before : Label n → ProcState
  | pick _ => .runnable
  | _ => .running

def run (k : Symbols) : Label n → P n Unit
  | pick p => modify fun s => s.setState p .running
  | yield p => modify fun s => s.setState p .runnable
  | trap p regs => uservec p regs
  | store p va b => userStore p va b
  | fork p => discard (Proc.fork k p)
  | exec p file args => discard (sysExec k p file args)
  | sbrk p i => discard (growproc k p i)
  | pipe p fdarray => discard (sysPipe k p fdarray)
  | close p fd => discard (sysClose k p fd)
  | exit p status => Proc.exit k p status
  | wait p addr => discard (Proc.wait k p addr)
  | threadCreate p fn arg stack => discard (Proc.threadCreate k p fn arg stack)
  | threadJoin p retval => discard (Proc.threadJoin k p retval)

end Label

/-- A step that does not stop the system. -/
def step (k : Symbols) (l : Label n) (s : State n) : Option (State n) :=
  if (s.proc l.proc).state = l.before then
    match l.run k s with
    | .ok (_, s') => some s'
    | .error _ => none
  else none

def kstackVa (p : Nat) : UInt64 := trampolineVa - UInt64.ofNat (p + 1) * 2 * pgsize

def kvmmap (kpgtbl : Addr) (va pa sz perm : UInt64) : M Unit := do
  if ¬(← mappages kpgtbl va sz pa perm) then throw .kvmmap

/-- The body of the loop of `proc_mapstacks`. -/
def mapstack (kpgtbl : Addr) (p : Nat) : M Unit := do
  match ← kalloc with
  | none => throw .kalloc
  | some pa => kvmmap kpgtbl (kstackVa p) pa pgsize (pteR ||| pteW)

/-- `proc_mapstacks` for a table of `n` entries. -/
def procMapstacks (n : Nat) (kpgtbl : Addr) : M Unit := (List.range n).forM (mapstack kpgtbl)

/-- The kernel before `userinit`, with the memory that the rest of the boot has left. -/
def start [NeZero n] (mem : Mem) : State n where
  table := .zero n
  image := fun p => ⟨kstackVa p, 0, none, none, fun _ => none⟩
  mem := mem
  ftable := fun _ => ⟨0, none⟩
  pipe := fun _ => ⟨false, false⟩

end Xv6.Proc
