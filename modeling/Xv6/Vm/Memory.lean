import Xv6.Vm.Layout
import Xv6.Lib.Wp

/-! Physical memory and `kernel/kalloc.c`. A page holds 512 words; the free list is the list of its
pages. -/

namespace Xv6.Vm

open Function

/-- The panics of the modelled functions, and the places where the kernel would go on with a null
pointer or run out of stack. -/
inductive Stop
  | kalloc
  | kfree
  | kvmmap
  | walk
  | mappagesVa
  | mappagesSizeAligned
  | mappagesSize
  | mappagesRemap
  | uvmunmapAligned
  | uvmunmapWalk
  | uvmunmapNotMapped
  | uvmunmapNotLeaf
  | uvmfirst
  | freewalkLeaf
  | uvmcopyPte
  | uvmcopyPresent
  | uvmclear
  | loadseg
  | initExiting
  | filedup
  | fileclose
  | nullPointer
  | stackOverflow
  deriving DecidableEq, Repr

abbrev Addr : Type := UInt64

abbrev Page : Type := Fin 512 → UInt64

/-- A `pte_t *`: a page and an index in it. -/
abbrev PtePtr : Type := Addr × Fin 512

/-- The words of the pages and `kmem.freelist`; `twice` records whether a page was ever freed while
it was free. -/
structure Mem where
  word : Addr → Page
  freelist : List Addr
  twice : Bool

abbrev M (α : Type) : Type := StateT Mem (Except Stop) α

namespace Mem

variable (m : Mem)

def setPage (pa : Addr) (v : Page) : Mem := { m with word := update m.word pa v }

def setWord (p : PtePtr) (v : UInt64) : Mem :=
  m.setPage p.1 (update (m.word p.1) p.2 v)

variable {m}

theorem setPage_self : (m.setPage pa v).word pa = v :=
  update_self ..

theorem setPage_of_ne (h : x ≠ pa) :
    (m.setPage pa v).word x = m.word x := update_of_ne h ..

theorem setWord_self : (m.setWord (a, i) v).word a j = if j = i then v else m.word a j := by
  rw [setWord, setPage_self, update_apply]

end Mem

def load (p : PtePtr) : M UInt64 := do return (← get).word p.1 p.2

def store (p : PtePtr) (v : UInt64) : M Unit := modify fun m => m.setWord p v

/-- `memset(pa, c, PGSIZE)`, where `c` is the word of eight equal bytes. -/
def memset (pa : Addr) (c : UInt64) : M Unit := modify fun m => m.setPage pa fun _ => c

def memmove (dst src : Addr) : M Unit := modify fun m => m.setPage dst (m.word src)

/-- `kalloc`, with its fill of 5s. -/
def kalloc : M (Option Addr) := do
  let m ← get
  match m.freelist with
  | [] => return none
  | r :: next =>
    set { m.setPage r fun _ => 0x0505050505050505 with freelist := next }
    return some r

section

variable (k : Symbols)

/-- `kfree`, with its fill of 1s and `r->next`. -/
def kfree (pa : Addr) : M Unit := do
  if pa % pgsize ≠ 0 ∨ pa < k.end_ ∨ phystop ≤ pa then throw .kfree
  else modify fun m =>
    { m.setPage pa fun i => if i = 0 then m.freelist.headD 0 else 0x0101010101010101 with
      freelist := pa :: m.freelist
      twice := m.twice || pa ∈ m.freelist }

/-- The pages from `end` to `PHYSTOP`. -/
def Symbols.pages : List Addr :=
  (List.range ((phystop.toNat - (pgroundup k.end_).toNat) / 4096)).map fun i =>
    pgroundup k.end_ + UInt64.ofNat i * pgsize

end

end Xv6.Vm
