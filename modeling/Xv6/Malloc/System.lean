import Xv6.Lib.Run

/-! The allocator of user programs. Memory holds a header at every address; addresses count bytes.
The answers of `sbrk` come from outside and are recorded. The loops take a fuel. -/

namespace Xv6.Malloc

open Function

abbrev headerSize : Nat := 16

structure Header where
  ptr : Nat
  size : UInt32
  deriving DecidableEq, Repr

/-- A call of `sbrk`, answered with an address or with `-1`. -/
structure Sbrk where
  arg : Int
  answer : Option Nat
  deriving DecidableEq, Repr

/-- The memory with `freep`, and the calls of `sbrk`. -/
structure Heap where
  mem : Nat → Header
  freep : Nat
  sbrks : List Sbrk

def plus (p : Nat) (n : UInt32) : Nat := p + headerSize * n.toNat

def setPtr (m : Nat → Header) (p v : Nat) : Nat → Header :=
  update m p { m p with ptr := v }

def setSize (m : Nat → Header) (p : Nat) (v : UInt32) : Nat → Header :=
  update m p { m p with size := v }

def freeLoop (m : Nat → Header) (bp : Nat) : Nat → Nat → Option Nat
  | 0, _ => none
  | fuel + 1, p =>
    if bp > p ∧ bp < (m p).ptr then some p
    else if p ≥ (m p).ptr ∧ (bp > p ∨ bp < (m p).ptr) then some p
    else freeLoop m bp fuel (m p).ptr

/-- `free` joins the block at `bp` to the one after it, or puts it before that one. -/
def joinNext (m : Nat → Header) (bp p : Nat) : Nat → Header :=
  if plus bp (m bp).size = (m p).ptr then
    let m := setSize m bp ((m bp).size + (m (m p).ptr).size)
    setPtr m bp (m (m p).ptr).ptr
  else setPtr m bp (m p).ptr

/-- `free` joins the block at `bp` to the one before it, or puts it after that one. -/
def joinPrev (m : Nat → Header) (bp p : Nat) : Nat → Header :=
  if plus p (m p).size = bp then
    let m := setSize m p ((m p).size + (m bp).size)
    setPtr m p (m bp).ptr
  else setPtr m p bp

def free (fuel : Nat) (h : Heap) (ap : Nat) : Option Heap :=
  let bp := ap - headerSize
  (freeLoop h.mem bp fuel h.freep).map fun p =>
    { h with mem := joinPrev (joinNext h.mem bp p) bp p, freep := p }

def coreUnits (nu : UInt32) : UInt32 := if nu < 4096 then 4096 else nu

def sbrkArg (nu : UInt32) : Int := Int.bmod (nu.toNat * headerSize) (2 ^ 32)

def morecore (fuel : Nat) (h : Heap) (nu : UInt32) (answer : Option Nat) : Option (Heap × Nat) :=
  let nu := coreUnits nu
  let h := { h with sbrks := h.sbrks ++ [⟨sbrkArg nu, answer⟩] }
  match answer with
  | none => some (h, 0)
  | some hp =>
    (free fuel { h with mem := setSize h.mem hp nu } (hp + headerSize)).map fun h => (h, h.freep)

def nunits (nbytes : UInt32) : UInt32 :=
  UInt32.ofNat ((nbytes.toNat + headerSize - 1) / headerSize + 1)

def take (h : Heap) (n : UInt32) (prevp p : Nat) : Heap × Nat :=
  if (h.mem p).size = n then
    ({ h with mem := setPtr h.mem prevp (h.mem p).ptr, freep := prevp }, p + headerSize)
  else
    let m := setSize h.mem p ((h.mem p).size - n)
    let p := plus p (m p).size
    ({ h with mem := setSize m p n, freep := prevp }, p + headerSize)

/-- The loop of `malloc`, with the answers of `sbrk`; those that are not given are `-1`. -/
def mallocLoop (n : UInt32) : Nat → Heap → Nat → Nat → List (Option Nat) → Option (Heap × Nat)
  | 0, _, _, _, _ => none
  | fuel + 1, h, prevp, p, answers =>
    if (h.mem p).size ≥ n then some (take h n prevp p)
    else if p = h.freep then
      (morecore fuel h n answers.head?.join).bind fun (h, p) =>
        if p = 0 then some (h, 0) else mallocLoop n fuel h p (h.mem p).ptr answers.tail
    else mallocLoop n fuel h p (h.mem p).ptr answers

def setup (base : Nat) (h : Heap) : Heap :=
  if h.freep = 0 then { h with mem := update h.mem base ⟨base, 0⟩, freep := base } else h

def malloc (base fuel : Nat) (h : Heap) (nbytes : UInt32) (answers : List (Option Nat)) :
    Option (Heap × Nat) :=
  let h := setup base h
  mallocLoop (nunits nbytes) fuel h h.freep (h.mem h.freep).ptr answers

/-- A piece of memory of whole units. -/
structure Block where
  addr : Nat
  units : Nat
  deriving DecidableEq, Repr

def Block.stop (b : Block) : Nat := b.addr + headerSize * b.units

def Block.Contains (b : Block) (x : Nat) : Prop := b.addr ≤ x ∧ x < b.stop

instance (b : Block) (x : Nat) : Decidable (b.Contains x) := inferInstanceAs (Decidable (_ ∧ _))

def Sbrk.block (c : Sbrk) : Option Block :=
  c.answer.map fun a => ⟨a, c.arg.toNat / headerSize⟩

/-- The heap with the blocks that the program has. -/
structure State where
  heap : Heap
  allocated : List Block

def State.obtained (s : State) : List Block := s.heap.sbrks.filterMap Sbrk.block

inductive Label
  | malloc (fuel : Nat) (nbytes : UInt32) (answers : List (Option Nat))
  | free (fuel : Nat) (ap : Nat)
  | write (m : Nat → Header)

def step (base : Nat) : Label → State → Option State
  | .malloc fuel nbytes answers, s =>
    (malloc base fuel s.heap nbytes answers).map fun (h, ap) =>
      if ap = 0 then { s with heap := h }
      else ⟨h, ⟨ap - headerSize, (nunits nbytes).toNat⟩ :: s.allocated⟩
  | .free fuel ap, s =>
    (free fuel s.heap ap).map fun h =>
      ⟨h, s.allocated.filter fun b => b.addr + headerSize ≠ ap⟩
  | .write m, s => some { s with heap := { s.heap with mem := m } }

def boot (m : Nat → Header) : State := ⟨⟨m, 0, []⟩, []⟩

end Xv6.Malloc
