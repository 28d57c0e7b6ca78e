import Xv6.Fs.Data
import Xv6.Lib.Run

/-! Processes that write through one `struct file`. A step is what `filewrite` does between two
points at which another process may run; `begin_op` and `end_op` only delay. The calls, their
results and their chunks, when the lock is obtained, are recorded. -/

namespace Xv6.Writers

open Fs (M bmap writeiLoop writeMax)

/-- A call of `filewrite`, with the user's memory from `addr` on. -/
structure Call where
  mem : List UInt8
  n : Int
  deriving DecidableEq

def Call.bytes (c : Call) : List UInt8 := c.mem.take c.n.toNat

def Call.chunk (c : Call) (q : Nat) : List UInt8 := (c.bytes.drop (q * writeMax)).take writeMax

def Call.count (c : Call) : Nat := (c.n.toNat + writeMax - 1) / writeMax

def Call.result (c : Call) : Int := if 0 ≤ c.n then c.n else -1

/-- A call that runs: its number among the calls, and the variable `i`. -/
structure Job where
  id : Nat
  call : Call
  i : Nat
  deriving DecidableEq

def Job.n1 (j : Job) : Nat := min (j.call.n.toNat - j.i) writeMax

/-- The user's memory from `addr + i` on. -/
def Job.src (j : Job) (k : Nat) : Option UInt8 := j.call.mem[j.i + k]?

def Job.chunk (j : Job) : List UInt8 := (j.call.bytes.drop j.i).take writeMax

def flat (chunks : List (Nat × List UInt8)) : List UInt8 := (chunks.map Prod.snd).flatten

/-- Where a process is in `filewrite`. -/
inductive Pc
  | user
  | test (j : Job)
  | ilock (j : Job)
  | writei (j : Job)
  /-- The loop of `writei`. -/
  | write (j : Job) (tot off : Nat)
  /-- The end of `writei`, and `f->off += r`. -/
  | finish (j : Job) (tot off : Nat)
  | iunlock (j : Job) (r : Int)
  | endOp (j : Job) (r : Int)
  deriving DecidableEq

def Pc.job : Pc → Option Job
  | .user => none
  | .test j | .ilock j | .writei j | .write j _ _ | .finish j _ _ | .iunlock j _
  | .endOp j _ => some j

def Pc.holding : Pc → Bool
  | .writei _ | .write _ _ _ | .finish _ _ _ | .iunlock _ _ => true
  | _ => false

structure State where
  fs : Fs.State
  pc : Fin nproc → Pc
  calls : List Call
  rets : List (Nat × Int)
  chunks : List (Nat × List UInt8)

namespace State

variable (s : State)

def setPc (p : Fin nproc) (pc : Pc) : State := { s with pc := Function.update s.pc p pc }

def ret (p : Fin nproc) (j : Job) : State :=
  { s.setPc p .user with
    rets := s.rets ++ [(j.id, if (j.i : Int) = j.call.n then j.call.n else -1)] }

def chunksOf (k : Nat) : List (List UInt8) := (s.chunks.filter (·.1 = k)).map Prod.snd

end State

/-- Process `p` runs a part of the kernel.  There is no result when it panics or has to wait. -/
def run {α : Type} (m : M α) (p : Fin nproc) (fs : Fs.State) : Option (α × Fs.State) :=
  match m { fs with cur := p } with
  | .ok r => some r
  | .error _ => none

def writeiEnd (sb : Superblock) (i : Slot) (off : Nat) : M Unit := do
  modify fun s =>
    if off > (s.din i).size.toNat then s.setDin i { s.din i with size := UInt32.ofNat off } else s
  Fs.iupdate sb i

def advance (fs : Fs.State) (f : Fin nfile) (r : Nat) : Fs.State :=
  let file := { fs.ftable f with off := (fs.ftable f).off + UInt32.ofNat r }
  { fs with ftable := Function.update fs.ftable f file }

/-- A process calls `filewrite`, or goes on with its call. -/
inductive Label
  | call (p : Fin nproc) (mem : List UInt8) (n : Int)
  | run (p : Fin nproc)

section Step

variable (sb : Superblock) (f : Fin nfile)

def step : Label → State → Option State
  | .call p mem n, s =>
    match s.pc p with
    | .user =>
      let j : Job := ⟨s.calls.length, ⟨mem, n⟩, 0⟩
      let s := { s with calls := s.calls ++ [j.call] }
      if (s.fs.ftable f).writable then some (s.setPc p (.test j))
      else some { s with rets := s.rets ++ [(j.id, -1)] }
    | _ => none
  | .run p, s =>
    let ip := (s.fs.ftable f).ip
    match s.pc p with
    | .user => none
    | .test j => some (if (j.i : Int) < j.call.n then s.setPc p (.ilock j) else s.ret p j)
    | .ilock j =>
      (run (Fs.ilock sb ip) p s.fs).map fun (_, fs) =>
        { s.setPc p (.writei j) with fs := fs, chunks := s.chunks ++ [(j.id, j.chunk)] }
    | .writei j =>
      let off := (s.fs.ftable f).off
      let n1 := UInt32.ofNat j.n1
      if off > (s.fs.din ip).size ∨ off + n1 < off then some (s.setPc p (.iunlock j (-1)))
      else if (off + n1).toNat > maxFile * bsize then some (s.setPc p (.iunlock j (-1)))
      else some (s.setPc p (.write j 0 off.toNat))
    | .write j tot off =>
      -- a round that adds nothing ends the loop
      (run (writeiLoop sb ip j.src 1 tot off j.n1) p s.fs).map fun (r, fs) =>
        { s.setPc p (if r.1 = tot then .finish j tot off else .write j r.1 r.2) with fs := fs }
    | .finish j tot off =>
      (run (writeiEnd sb ip off) p s.fs).map fun (_, fs) =>
        { s.setPc p (.iunlock j tot) with fs := if tot > 0 then advance fs f tot else fs }
    | .iunlock j r =>
      (run (Fs.iunlock ip) p s.fs).map fun (_, fs) => { s.setPc p (.endOp j r) with fs := fs }
    | .endOp j r =>
      if r ≠ j.n1 then some (s.ret p j) else some (s.setPc p (.test { j with i := j.i + j.n1 }))

def boot (fs : Fs.State) : State := ⟨fs, fun _ => .user, [], [], []⟩

/-- The buffers are the user's, the file does not get too large, and there are blocks. -/
def Allowed (s : State) : Label → Prop
  | .call _ mem n => n ≤ mem.length
  | .run p =>
    match s.pc p with
    | .writei j => (s.fs.ftable f).off.toNat + j.n1 ≤ maxFile * bsize
    | .write j tot off => tot < j.n1 →
      ∀ t, bmap sb (s.fs.ftable f).ip (off / bsize) { s.fs with cur := p } ≠ .ok (0, t)
    | _ => True

end Step

end Xv6.Writers
