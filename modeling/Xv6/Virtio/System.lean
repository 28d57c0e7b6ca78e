import Xv6.Param
import Xv6.Lib.Ring
import Xv6.Lib.Run

/-! The driver of the virtio disk, its callers and the device. A step is a section of `vdisk_lock`
in `virtio_disk_rw`, a pass of the loop of `virtio_disk_intr`, or a step of the device, which takes
entries in order and completes chains in any order. The numbers of requests and the lists at the end
of the state record the run. -/

namespace Xv6.Virtio

open Function

/-- `NUM`, the number of descriptors. -/
abbrev num : Nat := 8

/-- `VRING_DESC_F_NEXT` and `VRING_DESC_F_WRITE`. -/
def descFNext : UInt16 := 1

def descFWrite : UInt16 := 2

/-- `VIRTIO_BLK_T_IN` and `VIRTIO_BLK_T_OUT`. -/
def blkTIn : UInt32 := 0

def blkTOut : UInt32 := 1

/-- An address in a descriptor: zero, `&disk.ops[i]`, `b->data` or `&disk.info[i].status`. -/
inductive Addr (B : Type)
  | null
  | op (i : Nat)
  | data (b : B)
  | status (i : Nat)
  deriving DecidableEq, Repr

structure Desc (B : Type) where
  addr : Addr B := .null
  len : UInt32 := 0
  flags : UInt16 := 0
  next : UInt16 := 0
  deriving DecidableEq, Repr

structure BlkReq where
  type : UInt32 := 0
  reserved : UInt32 := 0
  sector : UInt64 := 0
  deriving DecidableEq, Repr

structure Avail where
  idx : UInt16 := 0
  ring : Fin num → UInt16 := fun _ => 0

/-- `struct virtq_used`, with the ids of its entries. -/
structure Used where
  idx : UInt16 := 0
  ring : Fin num → UInt32 := fun _ => 0

/-- An entry of `disk.info`. -/
structure Info (B : Type) where
  b : Option B := none
  status : UInt8 := 0

structure Disk (B : Type) where
  desc : Nat → Desc B
  avail : Avail
  used : Used
  free : Nat → Bool
  usedIdx : UInt16
  info : Nat → Info B
  ops : Nat → BlkReq

/-- The three descriptors in `idx`. -/
structure Chain where
  head : Nat
  data : Nat
  status : Nat
  deriving DecidableEq, Repr

def Chain.toList (c : Chain) : List Nat := [c.head, c.data, c.status]

def Chain.ofList (idx : List Nat) : Chain := ⟨idx.getD 0 0, idx.getD 1 0, idx.getD 2 0⟩

/-- What a request asks for: `len` bytes between a buffer and the disk. -/
structure Command (B : Type) where
  write : Bool
  sector : UInt64
  buf : B
  len : UInt32
  deriving DecidableEq, Repr

namespace Disk

variable {B : Type} (d : Disk B)

def setFree (i : Nat) (v : Bool) : Disk B := { d with free := update d.free i v }

def setInfo (i : Nat) (v : Info B) : Disk B := { d with info := update d.info i v }

/-- The part of `virtio_disk_rw` that formats the descriptors in `idx` and puts the chain into the
avail ring. -/
def submit (idx : Chain) (cmd : Command B) : Disk B where
  desc :=
    let head := update d.desc idx.head
      { addr := .op idx.head, len := 16, flags := descFNext, next := UInt16.ofNat idx.data }
    let data := update head idx.data
      { addr := .data cmd.buf
        len := cmd.len
        flags := (if cmd.write then 0 else descFWrite) ||| descFNext
        next := UInt16.ofNat idx.status }
    update data idx.status
      { addr := .status idx.head, len := 1, flags := descFWrite, next := 0 }
  avail :=
    { idx := d.avail.idx + 1
      ring := update d.avail.ring (Ring.cell num d.avail.idx.toNat)
        (UInt16.ofNat idx.head) }
  used := d.used
  free := d.free
  usedIdx := d.usedIdx
  info := update d.info idx.head { b := some cmd.buf, status := 0xff }
  ops := update d.ops idx.head
    { type := if cmd.write then blkTOut else blkTIn, reserved := 0, sector := cmd.sector }

/-- The command that the device reads from the chain at `id`, with the entry of `info` that its
status goes to. -/
def command (id : Nat) : Option (Command B × Nat) :=
  let head := d.desc id
  let data := d.desc head.next.toNat
  let status := d.desc data.next.toNat
  if head.flags &&& descFNext = 0 ∨ data.flags &&& descFNext = 0 ∨
      status.flags &&& descFNext ≠ 0 then none
  else
    match head.addr, data.addr, status.addr with
    | .op i, .data b, .status j =>
      let write := (d.ops i).type = blkTOut
      -- the device reads or writes the data, and writes the status
      if (data.flags &&& descFWrite = 0 ↔ write) ∧ status.flags &&& descFWrite ≠ 0 then
        some (⟨write, (d.ops i).sector, b, data.len⟩, j)
      else none
    | _, _, _ => none

/-- The device completes the chain at `id`: it writes the status and puts the chain into the used
ring. -/
def complete (id : UInt16) : Disk B :=
  let d := match d.command id.toNat with
    | some (_, j) => d.setInfo j { d.info j with status := 0 }
    | none => d
  { d with
    used :=
      { idx := d.used.idx + 1
        ring := update d.used.ring (Ring.cell num d.used.idx.toNat) id.toUInt32 } }

end Disk

/-- A request with the process that makes it and its descriptors. -/
structure Request (P B : Type) where
  proc : P
  command : Command B
  chain : Chain

/-- Outside of `virtio_disk_rw`, before it has descriptors, or waiting for the request `k`. Between
sections a process sleeps on `&disk.free[0]` or on `b`. -/
inductive Pc (B : Type)
  | idle
  | rw (b : B) (write : Bool)
  | wait (b : B) (idx : Chain) (k : Nat)
  deriving DecidableEq, Repr

/-- The fields of `struct buf` that the driver uses. -/
structure Buf where
  blockno : UInt32 := 0
  disk : Bool := false

/-- The panics of the driver, and an index outside of `info`, a null `b`, and a chain that does not
end. -/
inductive Panic
  | freeDesc1
  | freeDesc2
  | intrStatus
  | bounds
  | null
  | endless
  deriving DecidableEq, Repr

/-- `owner` holds `b->lock`; `inIntr`: the interrupt handler holds `vdisk_lock`. `seen` and `held`
are the device's: how far it is in the avail ring, and the chains it works on with the numbers of
their requests. Requests are `pending` in the avail ring, `finished` in the used ring, `completed`
by the device, with the commands that it read, or `resumed` by their callers. -/
structure State (P B : Type) where
  disk : Disk B
  buf : B → Buf
  owner : B → Option P
  pc : P → Pc B
  asleep : P → Bool
  inIntr : Bool
  seen : UInt16
  held : List (UInt16 × Nat)
  panicked : Option Panic
  reqs : List (Request P B)
  pending : List Nat
  finished : List Nat
  completed : List (Nat × Option (Command B))
  resumed : List Nat

namespace State

variable {P B : Type} (s : State P B)

def wakeupFree : State P B :=
  { s with
    asleep := fun p =>
      match s.pc p with
      | .rw _ _ => false
      | _ => s.asleep p }

def wakeup [DecidableEq B] (b : B) : State P B :=
  { s with
    asleep := fun p =>
      match s.pc p with
      | .wait b' _ _ => if b' = b then false else s.asleep p
      | _ => s.asleep p }

def allocDesc : Option (Nat × State P B) :=
  ((List.range num).find? s.disk.free).map fun i =>
    (i, { s with disk := s.disk.setFree i false })

def freeDesc (i : Nat) : Except Panic (State P B) :=
  if num ≤ i then .error .freeDesc1
  else if s.disk.free i then .error .freeDesc2
  else
    let disk := { s.disk with desc := update s.disk.desc i {} }
    .ok { s with disk := disk.setFree i true }.wakeupFree

/-- The loop of `free_chain`.  Each pass frees another descriptor, so that `NUM + 1` of them meet a
panic at the latest. -/
def freeChainLoop : Nat → State P B → Nat → Except Panic (State P B)
  | 0, _, _ => .error .endless
  | fuel + 1, s, i =>
    let flag := (s.disk.desc i).flags
    let nxt := (s.disk.desc i).next.toNat
    (s.freeDesc i).bind fun s =>
      if flag &&& descFNext ≠ 0 then freeChainLoop fuel s nxt else .ok s

def freeChain (i : Nat) : Except Panic (State P B) := freeChainLoop (num + 1) s i

/-- The loop by which `alloc3_desc` gives back what it has got. -/
def freeDescs : List Nat → State P B → Except Panic (State P B)
  | [], s => .ok s
  | i :: idx, s => (s.freeDesc i).bind (freeDescs idx)

/-- The loop of `alloc3_desc`, with the descriptors that it has and the number of those it still
wants. -/
def alloc3Loop : Nat → List Nat → State P B → Except Panic (Option (List Nat) × State P B)
  | 0, idx, s => .ok (some idx, s)
  | more + 1, idx, s =>
    match s.allocDesc with
    | some (i, s) => alloc3Loop more (idx ++ [i]) s
    | none => (freeDescs idx s).map fun s => (none, s)

def alloc3Desc : Except Panic (Option (List Nat) × State P B) := alloc3Loop 3 [] s

variable [DecidableEq P] [DecidableEq B]

def sleep (p : P) : State P B := { s with asleep := update s.asleep p true }

def setPc (p : P) (pc : Pc B) : State P B := { s with pc := update s.pc p pc }

def setDisk (b : B) (v : Bool) : State P B :=
  { s with buf := update s.buf b { s.buf b with disk := v } }

/-- What `virtio_disk_rw` asks for: the block of the buffer, which starts at `sector`. -/
def command (b : B) (write : Bool) : Command B where
  write := write
  sector := ((s.buf b).blockno * UInt32.ofNat (bsize / 512)).toUInt64
  buf := b
  len := UInt32.ofNat bsize

/-- `virtio_disk_rw` with the descriptors `idx`, up to the `sleep` on `b`. -/
def request (p : P) (b : B) (write : Bool) (idx : Chain) : State P B :=
  let cmd := s.command b write
  let s := (({ s with disk := s.disk.submit idx cmd }.setDisk b true).setPc p
    (.wait b idx s.reqs.length)).sleep p
  { s with
    reqs := s.reqs ++ [⟨p, cmd, idx⟩]
    pending := s.pending ++ [s.reqs.length] }

def resume (p : P) (k : Nat) : State P B := { s.setPc p .idle with resumed := s.resumed ++ [k] }

/-- The next section of `virtio_disk_rw` by the process `p`, up to a `sleep` or the end. -/
def rwSection (p : P) : Except Panic (State P B) :=
  match s.pc p with
  | .idle => .ok s
  | .rw b write =>
    s.alloc3Desc.map fun
      | (some idx, s) => s.request p b write (.ofList idx)
      | (none, s) => s.sleep p
  | .wait b idx k =>
    if (s.buf b).disk then .ok (s.sleep p)
    else
      let s := { s with disk := s.disk.setInfo idx.head { s.disk.info idx.head with b := none } }
      (s.freeChain idx.head).map fun s => s.resume p k

/-- A pass of the loop of `virtio_disk_intr`, or the end of the handler. -/
def intrPass : Except Panic (State P B) :=
  if s.disk.usedIdx = s.disk.used.idx then .ok { s with inIntr := false }
  else
    let id := (s.disk.used.ring (Ring.cell num s.disk.usedIdx.toNat)).toNat
    if num ≤ id then .error .bounds
    else if (s.disk.info id).status ≠ 0 then .error .intrStatus
    else
      match (s.disk.info id).b with
      | none => .error .null
      | some b =>
        let s := (s.setDisk b false).wakeup b
        .ok { s with
          disk := { s.disk with usedIdx := s.disk.usedIdx + 1 }
          finished := s.finished.tail }

def take : State P B :=
  { s with
    seen := s.seen + 1
    held := s.held ++ [(s.disk.avail.ring (Ring.cell num s.seen.toNat), s.pending.headD 0)]
    pending := s.pending.tail }

/-- The device completes the chain at place `i` of those that it works on. -/
def complete (i : Nat) (id : UInt16) (k : Nat) : State P B :=
  { s with
    disk := s.disk.complete id
    held := s.held.eraseIdx i
    finished := s.finished ++ [k]
    completed := s.completed ++ [(k, (s.disk.command id.toNat).map Prod.fst)] }

def after : Except Panic (State P B) → State P B
  | .ok s' => s'
  | .error e => { s with panicked := some e }

end State

/-- A buffer comes locked from `bget`, maybe for another block; `run` and `intrNext` go on with
`virtio_disk_rw` and the interrupt handler; the device takes and completes chains. -/
inductive Label (P B : Type)
  | acquiresleep (p : P) (b : B) (blockno : UInt32)
  | releasesleep (p : P) (b : B)
  | call (p : P) (b : B) (write : Bool)
  | run (p : P)
  | kill (p : P)
  | intr
  | intrNext
  | take
  | complete (i : Nat)

section

variable {P B : Type} [DecidableEq P] [DecidableEq B]

def State.act (s : State P B) : Label P B → Option (State P B)
  | .acquiresleep p b blockno =>
    if s.pc p = .idle ∧ s.owner b = none then
      some { s with
        owner := update s.owner b (some p)
        buf := update s.buf b { s.buf b with blockno := blockno } }
    else none
  | .releasesleep p b =>
    if s.pc p = .idle ∧ s.owner b = some p then
      some { s with owner := update s.owner b none }
    else none
  | .call p b write =>
    if s.pc p = .idle ∧ s.owner b = some p then some (s.setPc p (.rw b write)) else none
  | .run p =>
    if s.inIntr = false ∧ s.asleep p = false then some (s.after (s.rwSection p)) else none
  | .kill p => some { s with asleep := update s.asleep p false }
  | .intr => if s.inIntr = false then some { s with inIntr := true } else none
  | .intrNext => if s.inIntr then some (s.after s.intrPass) else none
  | .take => if s.seen ≠ s.disk.avail.idx then some s.take else none
  | .complete i => s.held[i]?.map fun (id, k) => s.complete i id k

/-- A step; there is none after a panic. -/
def step (l : Label P B) (s : State P B) : Option (State P B) :=
  if s.panicked = none then s.act l else none

def boot : State P B where
  disk :=
    { desc := fun _ => {}
      avail := {}
      used := {}
      free := fun i => i < num
      usedIdx := 0
      info := fun _ => {}
      ops := fun _ => {} }
  buf := fun _ => {}
  owner := fun _ => none
  pc := fun _ => .idle
  asleep := fun _ => false
  inIntr := false
  seen := 0
  held := []
  panicked := none
  reqs := []
  pending := []
  finished := []
  completed := []
  resumed := []

abbrev Reach : State P B → Prop := Transition.Reach step (fun _ _ => True) boot

end

end Xv6.Virtio
