import Xv6.Log.System

/-! The block cache of `kernel/bio.c` under the log of `kernel/log.c`, for any number of processes.
A section under `bcache.lock` or `log.lock` is one step, and so is each call that `commit` makes. -/

namespace Xv6.Bio

open Function

open Log (Geometry)

/-- `struct buf`.  `lock` is the holder of the sleep-lock. -/
structure Buf where
  valid : Bool
  dev : Nat
  blockno : Nat
  lock : Option Pid
  refcnt : Nat
  data : Block

abbrev Index : Type := Fin nbuf

/-- What `commit` does, call by call.  Buffers are named by the block that they hold. -/
inductive Instr
  | bread (b : Nat)
  /-- `memmove` from one buffer to another, and `bwrite` of that -/
  | copy (dst src : Nat)
  /-- the stores of `log.lh` in the buffer of the header block, and `bwrite` of it -/
  | putHead
  | bunpin (b : Nat)
  | brelse (b : Nat)
  /-- `log.lh.n = 0` -/
  | clear
  deriving DecidableEq, Repr

def writeLog (start : Nat) : Nat → List Nat → List Instr
  | _, [] => []
  | tail, b :: bs =>
    .bread (start + tail + 1) :: .bread b :: .copy (start + tail + 1) b :: .brelse b ::
      .brelse (start + tail + 1) :: writeLog start (tail + 1) bs

def installTrans (start : Nat) : Nat → List Nat → List Instr
  | _, [] => []
  | tail, b :: bs =>
    .bread (start + tail + 1) :: .bread b :: .copy b (start + tail + 1) :: .bunpin b ::
      .brelse (start + tail + 1) :: .brelse b :: installTrans start (tail + 1) bs

def writeHead (start : Nat) : List Instr := [.bread start, .putHead, .brelse start]

def commit (start : Nat) (lh : List Nat) : List Instr :=
  if lh.length > 0 then
    writeLog start 0 lh ++ (writeHead start ++ (installTrans start 0 lh ++
      .clear :: writeHead start))
  else []

inductive Panic
  | noBuffers
  | brelse
  | tooBig
  | outside
  | committing
  deriving DecidableEq, Repr

/-- The buffers, most recently used first, who sleeps for which, and the log. `committing` is the
process in `commit` with what it has still to do. The last two fields record the run: the block that
each process asked for last, and the map `L` of what was logged. -/
structure State where
  buf : Index → Buf
  lru : List Index
  waiters : Index → List Pid
  disk : Disk
  outstanding : Int
  lh : List Nat
  inOp : Pid → Bool
  committing : Option (Pid × List Instr)
  panicked : Option Panic
  wants : Pid → Nat
  L : Disk

namespace State

variable (s : State)

def setBuf (i : Index) (b : Buf) : State := { s with buf := update s.buf i b }

def panic (why : Panic) : State := { s with panicked := some why }

/-- Buffer `i` is for block `b` of the disk. -/
def Caches (i : Index) (b : Nat) : Prop := (s.buf i).dev = rootdev ∧ (s.buf i).blockno = b

instance (i : Index) (b : Nat) : Decidable (s.Caches i b) := inferInstanceAs (Decidable (_ ∧ _))

def Waits (p : Pid) : Prop := ∃ i, p ∈ s.waiters i

instance (p : Pid) : Decidable (s.Waits p) := inferInstanceAs (Decidable (∃ i, p ∈ s.waiters i))

/-- Process `p` takes a reference to buffer `i`, which it changes to `b`, and sleeps for its
lock. -/
def await (p : Pid) (i : Index) (b : Buf) : State :=
  { s.setBuf i b with
    waiters := update s.waiters i (p :: s.waiters i)
    wants := update s.wants p b.blockno }

/-- `bget` for block `b` up to `acquiresleep`. -/
def bget (p : Pid) (b : Nat) : State :=
  match s.lru.find? (fun i => s.Caches i b) with
  | some i => s.await p i { s.buf i with refcnt := (s.buf i).refcnt + 1 }
  | none =>
    match s.lru.reverse.find? (fun i => (s.buf i).refcnt = 0) with
    | some i =>
      s.await p i { s.buf i with dev := rootdev, blockno := b, valid := false, refcnt := 1 }
    | none => s.panic .noBuffers

/-- The end of `bread`: the lock is taken, and the block is read if the buffer does not hold it. -/
def acquire (p : Pid) (i : Index) : State :=
  { s.setBuf i { s.buf i with
      lock := some p
      data := if (s.buf i).valid then (s.buf i).data else s.disk (s.buf i).blockno
      valid := true } with
    waiters := update s.waiters i ((s.waiters i).erase p) }

def brelse (p : Pid) (i : Index) : State :=
  if (s.buf i).lock ≠ some p then s.panic .brelse
  else
    { s.setBuf i { s.buf i with lock := none, refcnt := (s.buf i).refcnt - 1 } with
      lru := if (s.buf i).refcnt - 1 = 0 then i :: s.lru.erase i else s.lru }

/-- The holder of buffer `i` stores `data` in it and calls `log_write`. -/
def logWrite (g : Geometry) (i : Index) (data : Block) : State :=
  let b := (s.buf i).blockno
  if s.lh.length ≥ logSize ∨ (s.lh.length : Int) ≥ (g.size : Int) - 1 then s.panic .tooBig
  else if s.outstanding < 1 then s.panic .outside
  else if b ∈ s.lh then
    { s.setBuf i { s.buf i with data := data } with L := update s.L b data }
  else
    { s.setBuf i { s.buf i with data := data, refcnt := (s.buf i).refcnt + 1 } with
      lh := s.lh ++ [b]
      L := update s.L b data }

def beginOp (p : Pid) : Option State :=
  if s.committing ≠ none ∨ (s.lh.length : Int) + (s.outstanding + 1) * maxOpBlocks > logSize then
    none
  else some { s with outstanding := s.outstanding + 1, inOp := update s.inOp p true }

def endOp (g : Geometry) (p : Pid) : State :=
  let s' : State :=
    { s with outstanding := s.outstanding - 1, inOp := update s.inOp p false }
  if s.committing ≠ none then s'.panic .committing
  else if s'.outstanding = 0 then { s' with committing := some (p, commit g.start s.lh) }
  else s'

def held (p : Pid) (b : Nat) : Option Index :=
  (List.finRange nbuf).find? fun i => s.Caches i b ∧ (s.buf i).lock = some p

/-- The contents of buffer `i` are set to `data`, and `bwrite` sends them to the disk. -/
def put (i : Index) (data : Block) : State :=
  { s.setBuf i { s.buf i with data := data } with
    disk := update s.disk (s.buf i).blockno data }

/-- What process `p` does at an instruction of `commit` that does not sleep. -/
def run (g : Geometry) (p : Pid) : Instr → Option State
  | .bread _ => none
  | .copy dst src =>
    match s.held p dst, s.held p src with
    | some d, some f => some (s.put d (s.buf f).data)
    | _, _ => none
  | .putHead =>
    (s.held p g.start).map fun i =>
      s.put i (Log.writeHead (s.lh.map UInt32.ofNat) (s.buf i).data)
  | .bunpin b =>
    (s.held p b).map fun i => s.setBuf i { s.buf i with refcnt := (s.buf i).refcnt - 1 }
  | .brelse b => (s.held p b).map fun i => s.brelse p i
  | .clear => some { s with lh := [] }

/-- The next step of the process in `commit`, and the end of `end_op` after it. -/
def commitStep (g : Geometry) : Option State :=
  match s.committing with
  | none => none
  | some (_, []) => some { s with committing := none }
  | some (p, .bread b :: _) => if s.Waits p then none else some (s.bget p b)
  | some (p, instr :: rest) =>
    (s.run g p instr).map fun s' => { s' with committing := some (p, rest) }

/-- The program of `commit` after process `p` returns from a `bread`. -/
def afterBread (p : Pid) : Option (Pid × List Instr) :=
  match s.committing with
  | some (q, .bread b :: rest) => if q = p then some (q, rest) else some (q, .bread b :: rest)
  | c => c

def Free (p : Pid) : Prop := ¬s.Waits p ∧ ∀ c, s.committing = some c → c.1 ≠ p

instance (p : Pid) : Decidable (s.Free p) :=
  match h : s.committing with
  | none => decidable_of_iff (¬s.Waits p) ⟨fun hw => ⟨hw, fun c hc => by simp [h] at hc⟩, And.left⟩
  | some c => decidable_of_iff (¬s.Waits p ∧ c.1 ≠ p)
    ⟨fun hw => ⟨hw.1, fun c' hc => by simp [h] at hc; exact hc ▸ hw.2⟩, fun hf => ⟨hf.1, hf.2 c h⟩⟩

end State

inductive Label
  | bread (p : Pid) (b : Nat)
  /-- the lock of buffer `i` is given to process `p`, which returns from `bread` -/
  | acquire (p : Pid) (i : Index)
  | logWrite (p : Pid) (i : Index) (data : Block)
  | brelse (p : Pid) (i : Index)
  | beginOp (p : Pid)
  | endOp (p : Pid)
  | commit

def step (g : Geometry) (l : Label) (s : State) : Option State :=
  if s.panicked ≠ none then none
  else match l with
  | .bread p b => if s.Free p then some (s.bget p b) else none
  | .acquire p i =>
    if p ∈ s.waiters i ∧ (s.buf i).lock = none then
      some { s.acquire p i with committing := s.afterBread p }
    else none
  | .logWrite p i data =>
    if s.Free p ∧ (s.buf i).lock = some p then some (s.logWrite g i data) else none
  | .brelse p i => if s.Free p then some (s.brelse p i) else none
  | .beginOp p => if s.Free p ∧ s.inOp p = false then s.beginOp p else none
  | .endOp p => if s.Free p ∧ s.inOp p = true then some (s.endOp g p) else none
  | .commit => s.commitStep g

/-- The processes read home blocks only; the log reads and writes its own. -/
def OverHome (g : Geometry) (_ : State) : Label → Prop
  | .bread _ b => ¬g.Region b
  | _ => True

/-- A state with nothing in use and an empty log, as `initlog` leaves it: what is cached is what is
on the disk. -/
structure Start (s : State) : Prop where
  lru : ∀ i, i ∈ s.lru
  unused : ∀ i, (s.buf i).refcnt = 0 ∧ (s.buf i).lock = none ∧ s.waiters i = []
  keys : ∀ i j b, s.Caches i b → s.Caches j b → i = j
  data : ∀ i, (s.buf i).dev = rootdev → (s.buf i).valid = true →
    (s.buf i).data = s.disk (s.buf i).blockno
  log : s.lh = [] ∧ s.outstanding = 0 ∧ s.committing = none
  contents : s.L = s.disk

def State.init (d : Disk) : State where
  buf := fun _ => ⟨false, 0, 0, none, 0, fun _ => 0⟩
  lru := (List.finRange nbuf).reverse
  waiters := fun _ => []
  disk := d
  outstanding := 0
  lh := []
  inOp := fun _ => false
  committing := none
  panicked := none
  wants := fun _ => 0
  L := d

abbrev Reach (g : Geometry) (s₀ : State) : State → Prop :=
  Transition.Reach (step g) (OverHome g) s₀

end Xv6.Bio
