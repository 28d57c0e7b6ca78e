import Xv6.Vm.Memory

/-! Page tables: `kernel/vm.c`.  A loop over addresses is given as fuel a bound on its passes. -/

namespace Xv6.Vm

/-- The loop of `walk`, from the page-table page of a level down. -/
def walkLevels (va : UInt64) (alloc : Bool) : Nat → Addr → M (Option PtePtr)
  | 0, pagetable => return some (pagetable, px 0 va)
  | level + 1, pagetable => do
    let pte := (pagetable, px (level + 1) va)
    let v ← load pte
    if v &&& pteV ≠ 0 then walkLevels va alloc level (pte2pa v)
    else if ¬alloc then return none
    else
      match ← kalloc with
      | none => return none
      | some page => do
        memset page 0
        store pte (pa2pte page ||| pteV)
        walkLevels va alloc level page

def walk (pagetable : Addr) (va : UInt64) (alloc : Bool) : M (Option PtePtr) :=
  if maxva ≤ va then throw .walk else walkLevels va alloc 2 pagetable

/-- `walkaddr`, which returns 0 where nothing is mapped. -/
def walkaddr (pagetable : Addr) (va : UInt64) : M UInt64 := do
  if maxva ≤ va then return 0
  else
    match ← walk pagetable va false with
    | none => return 0
    | some pte =>
      let v ← load pte
      if v &&& pteV = 0 then return 0
      else if v &&& pteU = 0 then return 0
      else return pte2pa v

/-- The loop of `mappages`; whether it returns 0. -/
def mappagesLoop (pagetable : Addr) (last perm : UInt64) : Nat → UInt64 → UInt64 → M Bool
  | 0, _, _ => return true
  | fuel + 1, a, pa => do
    match ← walk pagetable a true with
    | none => return false
    | some pte =>
      let v ← load pte
      if v &&& pteV ≠ 0 then throw .mappagesRemap
      else
        store pte (pa2pte pa ||| perm ||| pteV)
        if a = last then return true
        else mappagesLoop pagetable last perm fuel (a + pgsize) (pa + pgsize)

def mappages (pagetable : Addr) (va size pa perm : UInt64) : M Bool :=
  if va % pgsize ≠ 0 then throw .mappagesVa
  else if size % pgsize ≠ 0 then throw .mappagesSizeAligned
  else if size = 0 then throw .mappagesSize
  else mappagesLoop pagetable (va + size - pgsize) perm (size.toNat / 4096) va pa

def uvmcreate : M (Option Addr) := do
  match ← kalloc with
  | none => return none
  | some pagetable =>
    memset pagetable 0
    return some pagetable

def uvmclear (pagetable : Addr) (va : UInt64) : M Unit := do
  match ← walk pagetable va false with
  | none => throw .uvmclear
  | some pte => store pte ((← load pte) &&& ~~~pteU)

def asInt (x : UInt64) : UInt64 :=
  let low := x.toNat % 2 ^ 32
  if low < 2 ^ 31 then UInt64.ofNat low else UInt64.ofNat low - UInt64.ofNat (2 ^ 32)

/-- The word `w` with `b` as its `j`-th byte. -/
def setByte (w : UInt64) (j : Nat) (b : UInt8) : UInt64 :=
  (w &&& ~~~(0xFF <<< UInt64.ofNat (8 * j))) ||| (b.toUInt64 <<< UInt64.ofNat (8 * j))

/-- The page with the bytes `src` from the offset `off` on. -/
def writeBytes (v : Page) (off : Nat) : List UInt8 → Page
  | [] => v
  | b :: src =>
    let i := Fin.ofNat 512 (off / 8)
    writeBytes (Function.update v i (setByte (v i) (off % 8) b)) (off + 1) src

section

variable (k : Symbols)

/-- `if(do_free) kfree(pa)`. -/
def kfreeIf (do_free : Bool) (pa : Addr) : M Unit := if do_free then kfree k pa else return

/-- The loop of `uvmunmap`, up to the address `stop`. -/
def uvmunmapLoop (pagetable : Addr) (stop : UInt64) (do_free : Bool) : Nat → UInt64 → M Unit
  | 0, _ => return
  | fuel + 1, a =>
    if a < stop then do
      match ← walk pagetable a false with
      | none => throw .uvmunmapWalk
      | some pte =>
        let v ← load pte
        if v &&& pteV = 0 then throw .uvmunmapNotMapped
        else if pteFlags v = pteV then throw .uvmunmapNotLeaf
        else
          kfreeIf k do_free (pte2pa v)
          store pte 0
          uvmunmapLoop pagetable stop do_free fuel (a + pgsize)
    else return

def uvmunmap (pagetable : Addr) (va npages : UInt64) (do_free : Bool) : M Unit :=
  if va % pgsize ≠ 0 then throw .uvmunmapAligned
  else uvmunmapLoop k pagetable (va + npages * pgsize) do_free npages.toNat va

def uvmdealloc (pagetable : Addr) (oldsz newsz : UInt64) : M UInt64 := do
  if oldsz ≤ newsz then return oldsz
  else
    if pgroundup newsz < pgroundup oldsz then
      let npages := asInt ((pgroundup oldsz - pgroundup newsz) / pgsize)
      uvmunmap k pagetable (pgroundup newsz) npages true
    return newsz

/-- The loop of `uvmalloc` from the address `a`. -/
def uvmallocLoop (pagetable : Addr) (oldsz newsz xperm : UInt64) : Nat → UInt64 → M UInt64
  | 0, _ => return newsz
  | fuel + 1, a =>
    if a < newsz then do
      match ← kalloc with
      | none =>
        let _ ← uvmdealloc k pagetable a oldsz
        return 0
      | some mem =>
        memset mem 0
        if ← mappages pagetable a pgsize mem (pteR ||| pteU ||| xperm) then
          uvmallocLoop pagetable oldsz newsz xperm fuel (a + pgsize)
        else
          kfree k mem
          let _ ← uvmdealloc k pagetable a oldsz
          return 0
    else return newsz

/-- `uvmalloc`, which returns 0 when memory runs out. -/
def uvmalloc (pagetable : Addr) (oldsz newsz xperm : UInt64) : M UInt64 :=
  if newsz < oldsz then return oldsz
  else
    uvmallocLoop k pagetable (pgroundup oldsz) newsz xperm (newsz.toNat / 4096 + 1)
      (pgroundup oldsz)

/-- The body of `freewalk`'s loop, where `free` is the recursive call. -/
def freewalkEntry (free : Addr → M Unit) (pagetable : Addr) (i : Fin 512) : M Unit := do
  let pte ← load (pagetable, i)
  if pte &&& pteV ≠ 0 ∧ pte &&& (pteR ||| pteW ||| pteX) = 0 then do
    free (pte2pa pte)
    store (pagetable, i) 0
  else if pte &&& pteV ≠ 0 then throw .freewalkLeaf
  else return

/-- `freewalk`, at most `depth` calls deep. -/
def freewalk : Nat → Addr → M Unit
  | 0, _ => throw .stackOverflow
  | depth + 1, pagetable => do
    (List.finRange 512).forM (freewalkEntry (freewalk depth) pagetable)
    kfree k pagetable

theorem freewalk_succ (depth : Nat) (pagetable : Addr) : freewalk k (depth + 1) pagetable =
    ((List.finRange 512).forM (freewalkEntry (freewalk k depth) pagetable) >>= fun _ =>
      kfree k pagetable) := by
  rw [freewalk]

-- proofs are not to unfold the loop over the entries of a page
attribute [irreducible] freewalk

abbrev levels : Nat := 3

def uvmfree (pagetable : Addr) (sz : UInt64) : M Unit := do
  if 0 < sz then uvmunmap k pagetable 0 (pgroundup sz / pgsize) true
  freewalk k levels pagetable

/-- The loop of `uvmcopy` from the address `i`; the address of a failure. -/
def uvmcopyLoop (old new : Addr) (sz : UInt64) : Nat → UInt64 → M (Option UInt64)
  | 0, _ => return none
  | fuel + 1, i =>
    if i < sz then do
      match ← walk old i false with
      | none => throw .uvmcopyPte
      | some pte =>
        let v ← load pte
        if v &&& pteV = 0 then throw .uvmcopyPresent
        else
          match ← kalloc with
          | none => return some i
          | some mem =>
            memmove mem (pte2pa v)
            if ← mappages new i pgsize mem (pteFlags v) then
              uvmcopyLoop old new sz fuel (i + pgsize)
            else
              kfree k mem
              return some i
    else return none

/-- `uvmcopy`; whether it returns 0. -/
def uvmcopy (old new : Addr) (sz : UInt64) : M Bool := do
  match ← uvmcopyLoop k old new sz (sz.toNat / 4096 + 1) 0 with
  | none => return true
  | some i =>
    uvmunmap k new 0 (i / pgsize) true
    return false

/-- `proc_pagetable`, for a process with the given trapframe. -/
def procPagetable (trapframe : Addr) : M (Option Addr) := do
  match ← uvmcreate with
  | none => return none
  | some pagetable =>
    if ← mappages pagetable trampolineVa pgsize k.trampoline (pteR ||| pteX) then
      if ← mappages pagetable trapframeVa pgsize trapframe (pteR ||| pteW) then
        return some pagetable
      else
        uvmunmap k pagetable trampolineVa 1 false
        uvmfree k pagetable 0
        return none
    else
      uvmfree k pagetable 0
      return none

def procFreepagetable (pagetable : Addr) (sz : UInt64) : M Unit := do
  uvmunmap k pagetable trampolineVa 1 false
  uvmunmap k pagetable trapframeVa 1 false
  uvmfree k pagetable sz

end

def uvmfirst (pagetable : Addr) (src : List UInt8) : M Unit := do
  if 4096 ≤ src.length then throw .uvmfirst
  else
    match ← kalloc with
    | none => throw .nullPointer
    | some mem =>
      memset mem 0
      let _ ← mappages pagetable 0 pgsize mem (pteW ||| pteR ||| pteX ||| pteU)
      modify fun m => m.setPage mem (writeBytes (m.word mem) 0 src)

/-- The loop of `copyout`, which copies at least one byte in a pass. -/
def copyoutLoop (pagetable : Addr) : Nat → UInt64 → List UInt8 → M Bool
  | _, _, [] => return true
  | 0, _, _ => return true
  | fuel + 1, dstva, src => do
    let va0 := pgrounddown dstva
    if maxva ≤ va0 then return false
    else
      match ← walk pagetable va0 false with
      | none => return false
      | some pte =>
        let v ← load pte
        if v &&& pteV = 0 ∨ v &&& pteU = 0 ∨ v &&& pteW = 0 then return false
        else
          let n := (pgsize - (dstva - va0)).toNat
          modify fun m => m.setPage (pte2pa v)
            (writeBytes (m.word (pte2pa v)) (dstva - va0).toNat (src.take n))
          copyoutLoop pagetable fuel (va0 + pgsize) (src.drop n)

/-- `copyout`; whether it returns 0. -/
def copyout (pagetable : Addr) (dstva : UInt64) (src : List UInt8) : M Bool :=
  copyoutLoop pagetable src.length dstva src

end Xv6.Vm
