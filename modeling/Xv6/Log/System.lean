import Xv6.Param
import Xv6.Lib.Run

/-! The logging system of `kernel/log.c`, for any number of processes. Each section under `log.lock`
and each block that `commit` or `recover_from_log` writes is one step, and the machine may stop
before any. The state holds what `bread` returns beside the disk. -/

namespace Xv6.Log

open Function

/-- `log.start` and `log.size`, which `initlog` takes from the super block.  The first of the
`size` blocks is the header. -/
structure Geometry where
  start : Nat
  size : Nat
  header : 0 < size

/-- The geometry that `mkfs` writes: `nlog = LOGSIZE`. -/
def mkfsGeometry (start : Nat) : Geometry := ⟨start, logSize, by decide⟩

/-- The blocks of the log: the header block and the data blocks after it. -/
def Geometry.Region (g : Geometry) (b : Nat) : Prop := g.start ≤ b ∧ b < g.start + g.size

instance (g : Geometry) (b : Nat) : Decidable (g.Region b) :=
  inferInstanceAs (Decidable (_ ∧ _))

/-- The block numbers `block[0..n)` of the log header in the block `b`, as `read_head` takes them.
A negative `n` gives an empty loop. -/
def readHead (b : Block) : List UInt32 :=
  (List.range (asInt (Bytes.get32 b 0)).toNat).map fun i => Bytes.get32 b (4 + 4 * i)

/-- The stores of `hb->block[i]` by `write_head`, from index `i` on. -/
def writeHeadBlocks (b : Block) (i : Nat) : List UInt32 → Block
  | [] => b
  | n :: ns => writeHeadBlocks (Bytes.set32 b (4 + 4 * i) n) (i + 1) ns

/-- The header block `b` after `write_head` with `log.lh.block[0..n)` equal to `lh`.  The entries
past `n` keep what they held. -/
def writeHead (lh : List UInt32) (b : Block) : Block :=
  writeHeadBlocks (Bytes.set32 b 0 (UInt32.ofNat lh.length)) 0 lh

/-- The next write of a process in `commit`. -/
inductive CommitPc
  | test
  | writeLog (tail : Nat)
  | writeHead
  | install (tail : Nat)
  | clear
  | clearHead
  | done
  deriving DecidableEq, Repr

/-- Where a process stands in the code of the log. -/
inductive Pc
  | idle
  /-- asleep in the loop of `begin_op` -/
  | asleep
  /-- between the return of `begin_op` and the call of `end_op` -/
  | inOp
  /-- in the `do_commit` branch of `end_op` -/
  | commit (at_ : CommitPc)
  deriving DecidableEq, Repr

/-- What the machine as a whole is doing. -/
inductive Mode
  | readHead
  | install (tail : Nat)
  | clearHead
  | up
  deriving DecidableEq, Repr

inductive Panic
  | tooBig
  | outside
  | committing
  deriving DecidableEq, Repr

/-- The blocks with their contents that one commit makes durable. -/
abbrev Tx : Type := List (Nat × Block)

/-- A finished `begin_op..end_op` section: how many commits were on the disk when it began, and the
blocks that it logged. -/
structure Section where
  first : Nat
  wrote : List UInt32
  deriving DecidableEq, Repr

/-- The disk, `struct log`, the buffers as `bread` shows them, and the processes. The last four
fields record the run: the transactions whose header with `n > 0` reached the disk, their number
when each section began, the blocks of each section, and the finished sections. -/
structure State where
  disk : Disk
  bread : Disk
  mode : Mode
  panicked : Option Panic
  outstanding : Int
  committing : Bool
  lh : List UInt32
  proc : Pid → Pc
  durable : List Tx
  opened : Pid → Nat
  wrote : Pid → List UInt32
  closed : List Section

namespace State

def bwrite (s : State) (b : Nat) (data : Block) : State :=
  { s with disk := update s.disk b data, bread := update s.bread b data }

@[simp] def setProc (s : State) (p : Pid) (pc : Pc) : State :=
  { s with proc := update s.proc p pc }

def panic (s : State) (why : Panic) : State := { s with panicked := some why }

def tx (s : State) : Tx := s.lh.map fun b => (b.toNat, s.bread b.toNat)

/-- Power comes on with the disk `d`: no block is cached, and the kernel is about to run
`recover_from_log`. -/
def boot (d : Disk) (durable : List Tx) (closed : List Section) : State where
  disk := d
  bread := d
  mode := .readHead
  panicked := none
  outstanding := 0
  committing := false
  lh := []
  proc := fun _ => .idle
  durable := durable
  opened := fun _ => 0
  wrote := fun _ => []
  closed := closed

/-- The machine stops and is started again.  Of the finished sections those not yet committed are
gone. -/
def crash (s : State) : State :=
  boot s.disk s.durable (s.closed.filter fun sec => sec.first < s.durable.length)

end State

/-- `begin_op` up to its return or its next `sleep`; a sleeper that wakes runs it again. -/
def beginOp (s : State) (p : Pid) : Option State :=
  match s.proc p with
  | .idle | .asleep =>
    if s.committing then
      some (s.setProc p .asleep)
    else if (s.lh.length : Int) + (s.outstanding + 1) * maxOpBlocks > logSize then
      some (s.setProc p .asleep)
    else
      some { s.setProc p .inOp with
        outstanding := s.outstanding + 1
        opened := update s.opened p s.durable.length
        wrote := update s.wrote p [] }
  | _ => none

/-- Process `p` sets the data of its buffer of block `b` and calls `log_write`. -/
def logWrite (g : Geometry) (s : State) (p : Pid) (b : UInt32) (data : Block) : Option State :=
  match s.proc p with
  | .idle | .inOp =>
    if s.lh.length ≥ logSize ∨ (s.lh.length : Int) ≥ (g.size : Int) - 1 then
      some (s.panic .tooBig)
    else if s.outstanding < 1 then
      some (s.panic .outside)
    else
      some { s with
        bread := update s.bread b.toNat data
        lh := if b ∈ s.lh then s.lh else s.lh ++ [b]
        wrote := update s.wrote p
          (if b ∈ s.wrote p then s.wrote p else b :: s.wrote p) }
  | _ => none

def endOp (s : State) (p : Pid) : Option State :=
  match s.proc p with
  | .inOp =>
    let s : State := { s with
      outstanding := s.outstanding - 1
      closed := s.closed ++ [⟨s.opened p, s.wrote p⟩] }
    if s.committing then
      some (s.panic .committing)
    else if s.outstanding = 0 then
      some { s.setProc p (.commit .test) with committing := true }
    else
      some (s.setProc p .idle)
  | _ => none

/-- One iteration of the loop of `install_trans`: copy log block `tail` to its home. -/
def installBlock (g : Geometry) (s : State) (tail : Nat) (home : UInt32) : State :=
  s.bwrite home.toNat (s.bread (g.start + tail + 1))

/-- The next step of process `p` in `commit` and in the end of `end_op`. -/
def commitStep (g : Geometry) (s : State) (p : Pid) : Option State :=
  match s.proc p with
  | .commit .test =>
    if s.lh.length > 0 then some (s.setProc p (.commit (.writeLog 0)))
    else some (s.setProc p (.commit .done))
  | .commit (.writeLog tail) =>
    match s.lh[tail]? with
    | some home =>
      some ((s.bwrite (g.start + tail + 1) (s.bread home.toNat)).setProc p
        (.commit (.writeLog (tail + 1))))
    | none => some (s.setProc p (.commit .writeHead))
  | .commit .writeHead =>
    some { (s.bwrite g.start (writeHead s.lh (s.bread g.start))).setProc p
        (.commit (.install 0)) with
      durable := s.durable ++ [s.tx] }
  | .commit (.install tail) =>
    match s.lh[tail]? with
    | some home => some ((installBlock g s tail home).setProc p (.commit (.install (tail + 1))))
    | none => some (s.setProc p (.commit .clear))
  | .commit .clear => some { s.setProc p (.commit .clearHead) with lh := [] }
  | .commit .clearHead =>
    some ((s.bwrite g.start (writeHead s.lh (s.bread g.start))).setProc p (.commit .done))
  | .commit .done => some { s.setProc p .idle with committing := false }
  | _ => none

def recoverStep (g : Geometry) (s : State) : Option State :=
  match s.mode with
  | .readHead => some { s with lh := readHead (s.bread g.start), mode := .install 0 }
  | .install tail =>
    match s.lh[tail]? with
    | some home => some { installBlock g s tail home with mode := .install (tail + 1) }
    | none => some { s with lh := [], mode := .clearHead }
  | .clearHead =>
    some { s.bwrite g.start (writeHead s.lh (s.bread g.start)) with mode := .up }
  | .up => none

inductive Label
  | beginOp (p : Pid)
  | logWrite (p : Pid) (b : UInt32) (data : Block)
  | endOp (p : Pid)
  | commit (p : Pid)
  | recover
  | crash

/-- Processes run once recovery is complete, nothing but a restart follows a panic, and the machine
may stop at any time. -/
def step (g : Geometry) (l : Label) (s : State) : Option State :=
  match l with
  | .crash => some s.crash
  | .recover => if s.panicked = none then recoverStep g s else none
  | .beginOp p => if s.panicked = none ∧ s.mode = .up then beginOp s p else none
  | .logWrite p b data =>
    if s.panicked = none ∧ s.mode = .up then logWrite g s p b data else none
  | .endOp p => if s.panicked = none ∧ s.mode = .up then endOp s p else none
  | .commit p => if s.panicked = none ∧ s.mode = .up then commitStep g s p else none

abbrev Reach (g : Geometry) (ok : State → Label → Prop) (d : Disk) : State → Prop :=
  Transition.Reach (step g) ok (State.boot d [] [])

end Xv6.Log
