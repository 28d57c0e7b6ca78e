import Xv6.Vm.Spaces
import Xv6.Proc.Load
import Xv6.Lib.Tally

/-! Who owns the pages of memory, and what `allocproc`, `freeproc` and `growproc` do to them. -/

namespace Xv6.Proc

open Kernel Vm Wp Function Multiset Finset UInt64

variable {s : State n} {E : Stop → Prop} {α : Type}

namespace State

variable (s : State n)

def roots : Finset Addr := (Finset.univ.image fun p => (s.image p).pagetable).eraseNone

def page (o : Option Addr) : Multiset Addr := o.elim 0 fun x => {x}

@[simp] theorem page_none : page none = 0 := rfl

@[simp] theorem page_some (x : Addr) : page (some x) = {x} := rfl

def trapframes : Multiset Addr := ∑ p, page (s.image p).trapframe

def pipeSet : Finset Addr := (Finset.univ.image fun f => (s.ftable f).pipe.map Prod.fst).eraseNone

def pipes : Multiset Addr := s.pipeSet.val

/-- No other process has the page table of `p`. -/
def Unshared (p : Fin n) : Prop :=
  ∀ q r, q ≠ p → (s.image p).pagetable = some r → (s.image q).pagetable ≠ some r

end State

open State (page page_none page_some)

variable (k) in
/-- The pages that the processes own, and the pages `X`, are those that are not free. -/
def Own (X : Multiset Addr) (s : State n) : Prop :=
  Spaces k s.mem s.roots (X + s.trapframes + s.pipes)

section Parts

theorem mem_roots : r ∈ s.roots ↔ ∃ p, (s.image p).pagetable = some r := by
  simp [State.roots]

theorem roots_mem (at_ : (s.image p).pagetable = some r) : r ∈ s.roots := mem_roots.mpr ⟨p, at_⟩

theorem setImage_self : (s.setImage p im).image p = im := update_self ..

theorem setImage_of_ne (ne : q ≠ p) : (s.setImage p im).image q = s.image q :=
  update_of_ne ne ..

theorem roots_same (same : im.pagetable = (s.image p).pagetable) :
    (s.setImage p im).roots = s.roots := by
  have all : (fun q => ((s.setImage p im).image q).pagetable) = fun q => (s.image q).pagetable := by
    funext q
    by_cases hq : q = p
    · rw [hq, setImage_self, same]
    · rw [setImage_of_ne hq]
  rw [State.roots, all]
  rfl

theorem roots_insert (none : (s.image p).pagetable = none) (new : im.pagetable = some r) :
    (s.setImage p im).roots = insert r s.roots := by
  ext y
  rw [mem_insert, mem_roots, mem_roots]
  constructor
  · rintro ⟨q, at_⟩
    by_cases hq : q = p
    · rw [hq, setImage_self, new] at at_
      exact .inl (Option.some.inj at_).symm
    · rw [setImage_of_ne hq] at at_
      exact .inr ⟨q, at_⟩
  · rintro (rfl | ⟨q, at_⟩)
    · exact ⟨p, by rw [setImage_self, new]⟩
    · have hq : q ≠ p := by
        rintro rfl
        rw [none] at at_
        cases at_
      exact ⟨q, by rw [setImage_of_ne hq, at_]⟩

theorem roots_erase (old : (s.image p).pagetable = some r) (alone : s.Unshared p)
    (new : im.pagetable = none) : (s.setImage p im).roots = s.roots.erase r := by
  ext y
  rw [mem_erase, mem_roots, mem_roots]
  constructor
  · rintro ⟨q, at_⟩
    have hq : q ≠ p := by
      rintro rfl
      rw [setImage_self, new] at at_
      cases at_
    rw [setImage_of_ne hq] at at_
    refine ⟨?_, q, at_⟩
    rintro rfl
    exact alone q y hq old at_
  · rintro ⟨ne, q, at_⟩
    have hq : q ≠ p := by
      rintro rfl
      rw [old] at at_
      exact ne (Option.some.inj at_).symm
    exact ⟨q, by rw [setImage_of_ne hq, at_]⟩

theorem trapframes_set (s : State n) (p : Fin n) (im : Image) :
    (s.setImage p im).trapframes + page (s.image p).trapframe =
      s.trapframes + page im.trapframe := by
  have others : ∑ q ∈ Finset.univ.erase p, page ((s.setImage p im).image q).trapframe =
      ∑ q ∈ Finset.univ.erase p, page (s.image q).trapframe :=
    sum_congr rfl fun q hq => by rw [setImage_of_ne (ne_of_mem_erase hq)]
  rw [State.trapframes, State.trapframes, ← add_sum_erase _ _ (mem_univ p), others,
    ← add_sum_erase _ (fun q => page (s.image q).trapframe) (mem_univ p),
    setImage_self]
  abel

theorem trapframes_same (same : im.trapframe = (s.image p).trapframe) :
    (s.setImage p im).trapframes = s.trapframes := by
  have set := trapframes_set s p im
  rw [same] at set
  exact add_right_cancel set

theorem trapframe_mem (at_ : (s.image p).trapframe = some tf) : tf ∈ s.trapframes := by
  have le : page (s.image p).trapframe ≤ s.trapframes :=
    single_le_sum (fun _ _ => zero_le _) (mem_univ p)
  rw [at_] at le
  exact singleton_le.mp le

end Parts

section Memory

theorem wp_onMem {c : M α} (sub : wp c E (fun a m => Q a (s.setMem m)) s.mem) :
    wp (onMem c) E Q s := by
  unfold wp onMem at *
  cases run : c s.mem with
  | error | ok =>
    rwa [run] at sub

theorem Own.cons (o : Own k (x ::ₘ X) s) :
    Spaces k s.mem s.roots (x ::ₘ (X + s.trapframes + s.pipes)) := by
  rwa [Own, cons_add, cons_add] at o

theorem Own.wp_kalloc (o : Own k X s) (fail : Q none s)
    (ok : ∀ x m, Own k (x ::ₘ X) (s.setMem m) → Kept (allPages s.mem.word s.roots) s.mem m →
      Q (some x) (s.setMem m)) : wp (onMem kalloc) E Q s := by
  refine wp_onMem (Spaces.wp_kalloc o fail fun x m o' kept => ok x m ?_ (kept.mono ?_))
  · rwa [Own, cons_add, cons_add]
  · exact Multiset.le_add_left ..

theorem Own.wp_kfree (o : Own k (x ::ₘ X) s)
    (next : ∀ m, Own k X (s.setMem m) → Kept (allPages s.mem.word s.roots) s.mem m →
      Q () (s.setMem m)) : wp (onMem (kfree k x)) E Q s :=
  wp_onMem (o.cons.wp_kfree fun m o' kept => next m o' (kept.mono (Multiset.le_add_left ..)))

theorem Own.setImage (o : Own k X s) (pagetable : im.pagetable = (s.image p).pagetable)
    (trapframe : im.trapframe = (s.image p).trapframe) : Own k X (s.setImage p im) := by
  unfold Own
  rwa [roots_same pagetable, trapframes_same trapframe]

theorem Own.setTable (o : Own k X s) (t : Kernel.Table n) : Own k X (s.setTable t) := o

theorem Own.giveTrapframe (o : Own k (x ::ₘ X) s) (pagetable : im.pagetable = (s.image p).pagetable)
    (none : (s.image p).trapframe = none)
    (new : im.trapframe = some x) : Own k X (s.setImage p im) := by
  have set := trapframes_set s p im
  rw [none, new, page_none, page_some, add_zero] at set
  unfold Own
  rw [roots_same pagetable]
  refine o.perm ?_
  rw [set, ← singleton_add]
  abel

theorem Own.takeTrapframe (o : Own k X s) (pagetable : im.pagetable = (s.image p).pagetable)
    (old : (s.image p).trapframe = some x)
    (new : im.trapframe = none) : Own k (x ::ₘ X) (s.setImage p im) := by
  have set := trapframes_set s p im
  rw [old, new, page_none, page_some, add_zero] at set
  unfold Own
  rw [roots_same pagetable]
  refine o.perm ?_
  rw [← set, ← singleton_add]
  abel

end Memory

section Processes

variable {Q : Unit → State n → Prop}

/-- The state after `freeproc`, but for memory. -/
def State.freed (s : State n) (p : Fin n) : State n :=
  (s.setImage p { s.image p with trapframe := none, pagetable := none, sz := 0 }).setTable
    (s.table.freeproc p)

theorem setImage_setImage (s : State n) (p : Fin n) (a b : Image) :
    (s.setImage p a).setImage p b = s.setImage p b := by
  unfold State.setImage
  rw [update_idem]

/-- The page table of a process can be freed: no other has it, and it has the pages of the process's
size. -/
def Freeable (k : Symbols) (E : Stop → Prop) (s : State n) (p : Fin n) : Prop :=
  s.Unshared p ∧ ∀ r, (s.image p).pagetable = some r → (∃ tf, Top k (mapOf s.mem.word r) tf) ∧
    (s.image p).sz ≤ trapframeVa ∧
    ((mapOf s.mem.word r).Covers (pageCount (s.image p).sz) ∨ ∀ e, E e)

theorem Own.wp_procFreepagetable (o : Own k X s) (free : Freeable k E s p)
    (at_ : (s.image p).pagetable = some r) (im : Image) (pagetable : im.pagetable = none)
    (trapframe : im.trapframe = (s.image p).trapframe)
    (next : ∀ m, Own k X ((s.setImage p im).setMem m) →
      Kept (allPages s.mem.word (s.setImage p im).roots) s.mem m → Q () (s.setMem m)) :
    wp (onMem (procFreepagetable k r (s.image p).sz)) E Q s := by
  have mem := roots_mem at_
  obtain ⟨⟨tf, top⟩, small, cov⟩ := free.2 r at_
  have gone := roots_erase at_ free.1 pagetable
  refine wp_onMem (Vm.wp_procFreepagetable (o.focus mem) top small cov fun m holds kept => ?_)
  refine next m ?_ ?_
  · show Spaces k m (s.setImage p im).roots (X + (s.setImage p im).trapframes + s.pipes)
    rw [gone, trapframes_same trapframe]
    exact o.free mem kept holds
  · rw [gone]
    exact kept.mono (Multiset.le_add_left ..)

theorem freed_roots_le : (s.freed p).roots ⊆ s.roots := by
  intro r hr
  obtain ⟨q, at_⟩ := mem_roots.mp hr
  by_cases hq : q = p
  · rw [hq, show ((s.freed p).image p).pagetable = none from
      congrArg Image.pagetable setImage_self] at at_
    cases at_
  · exact mem_roots.mpr ⟨q, by rw [← at_]; exact congrArg Image.pagetable (setImage_of_ne hq).symm⟩

theorem wp_freePagetable (o : Own k X s) (free : Freeable k E s p)
    (gone : (s.image p).trapframe = none)
    (next : ∀ m, Own k X ((s.freed p).setMem m) →
      Kept (allPages s.mem.word (s.freed p).roots) s.mem m → Q () ((s.freed p).setMem m)) :
    wp (do
      match ((← get).image p).pagetable with
      | some pt => onMem (procFreepagetable k pt ((← get).image p).sz)
      | none => pure ()
      modify fun s =>
        (s.setImage p { s.image p with pagetable := none, sz := 0 }).setTable (s.table.freeproc p))
      E Q s := by
  have image : ({ s.image p with pagetable := none, sz := 0 } : Image) =
      { s.image p with trapframe := none, pagetable := none, sz := 0 } := by
    rw [Image.mk.injEq]
    exact ⟨rfl, rfl, rfl, gone, rfl⟩
  have final : (s.setImage p { s.image p with pagetable := none, sz := 0 }).setTable
      (s.table.freeproc p) = s.freed p := by rw [image, State.freed]
  refine .get ?_
  cases at_ : (s.image p).pagetable with
  | none =>
    have o' : Own k X ((s.setImage p { s.image p with pagetable := none, sz := 0 }).setTable
        (s.table.freeproc p)) := o.setImage at_.symm rfl
    refine wp_modify.mpr ?_
    rw [final] at o' ⊢
    exact next s.mem o' .refl
  | some r =>
    refine .get (.seq ?_)
    refine o.wp_procFreepagetable free at_ { s.image p with pagetable := none, sz := 0 } rfl rfl
      fun m o' kept => wp_modify.mpr ?_
    show Q () (((s.setImage p { s.image p with pagetable := none, sz := 0 }).setTable
      (s.table.freeproc p)).setMem m)
    replace o' : Own k X (((s.setImage p { s.image p with pagetable := none, sz := 0 }).setTable
      (s.table.freeproc p)).setMem m) := o'
    rw [final] at o' ⊢
    refine next m o' ?_
    rwa [← final]

theorem wp_freeproc (o : Own k X s) (free : Freeable k E s p)
    (next : ∀ m, Own k X ((s.freed p).setMem m) →
      Kept (allPages s.mem.word (s.freed p).roots) s.mem m → Q () ((s.freed p).setMem m)) :
    wp (freeproc k p) E Q s := by
  have here : (s.setImage p { s.image p with trapframe := none }).image p =
      { s.image p with trapframe := none } := setImage_self
  have roots : (s.setImage p { s.image p with trapframe := none }).roots = s.roots := roots_same rfl
  have final : (s.setImage p { s.image p with trapframe := none }).freed p = s.freed p := by
    rw [State.freed, here, setImage_setImage]
    rfl
  -- without its trapframe, the process still has its page table
  have tail : ∀ m, Own k X ((s.setImage p { s.image p with trapframe := none }).setMem m) →
      Kept (allPages s.mem.word s.roots) s.mem m → wp (do
        match ((← get).image p).pagetable with
        | some pt => onMem (procFreepagetable k pt ((← get).image p).sz)
        | none => pure ()
        modify fun s =>
          (s.setImage p { s.image p with pagetable := none, sz := 0 }).setTable (s.table.freeproc p))
        E Q ((s.setImage p { s.image p with trapframe := none }).setMem m) := by
    intro m o1 kept1
    refine wp_freePagetable o1 ⟨fun q r ne at_ => ?_, fun r at_ => ?_⟩ (by exact congrArg _ here)
      fun m' o' kept' => ?_
    · replace at_ : ((s.setImage p _).image p).pagetable = some r := at_
      rw [here] at at_
      show ((s.setImage p _).image q).pagetable ≠ some r
      rw [setImage_of_ne ne]
      exact free.1 q r ne at_
    · replace at_ : ((s.setImage p _).image p).pagetable = some r := at_
      show (∃ tf, Top k (mapOf m.word r) tf) ∧ ((s.setImage p _).image p).sz ≤ _ ∧
        ((mapOf m.word r).Covers (pageCount ((s.setImage p _).image p).sz) ∨ _)
      rw [here] at at_ ⊢
      rw [(kept1.space (roots_mem at_)).mapOf_eq]
      exact free.2 r at_
    · replace o' : Own k X ((State.freed (s.setImage p _) p).setMem m') := o'
      show Q () ((State.freed (s.setImage p _) p).setMem m')
      rw [final] at o' ⊢
      refine next m' o' ?_
      replace kept' : Kept (allPages m.word (State.freed (s.setImage p _) p).roots) m m' := kept'
      rw [final] at kept'
      exact (kept1.subset freed_roots_le).allPages_trans kept'
  refine .get ?_
  cases at_ : (s.image p).trapframe with
  | none => exact tail s.mem (o.setImage rfl at_.symm) .refl
  | some tf =>
    have o1 : Own k (tf ::ₘ X) (s.setImage p { s.image p with trapframe := none }) :=
      o.takeTrapframe rfl at_ rfl
    refine .seq (wp_onMem (o1.cons.wp_kfree fun m o' kept => tail m o' ?_))
    rw [roots] at kept
    exact kept.mono (Multiset.le_add_left ..)

theorem freed_setImage (kstack : im.kstack = (s.image p).kstack)
    (ofile : im.ofile = (s.image p).ofile) : (s.setImage p im).freed p = s.freed p := by
  have same : ({ im with trapframe := none, pagetable := none, sz := 0 } : Image) =
      { s.image p with trapframe := none, pagetable := none, sz := 0 } := by
    rw [Image.mk.injEq]
    exact ⟨kstack, rfl, rfl, rfl, ofile⟩
  rw [State.freed, setImage_self, setImage_setImage, same]
  rfl

theorem freed_roots (none : (s.image p).pagetable = none) : (s.freed p).roots = s.roots :=
  roots_same none.symm

theorem freeable_none (none : (s.image p).pagetable = none) : Freeable k E s p :=
  ⟨fun _ _ _ at_ => (nomatch none.symm.trans at_), fun _ at_ => (nomatch none.symm.trans at_)⟩

/-- The state after `allocproc` has made the process `p`, but for memory. -/
def State.begun (s : State n) (p : Fin n) (tf pt : Addr) : State n :=
  (s.setTable (s.table.take p)).setImage p
    { s.image p with trapframe := some tf, pagetable := some pt }

theorem Own.setPagetable (o : Own k X s) (none : (s.image p).pagetable = none)
    (u : User k m (X + s.trapframes + s.pipes + allPages s.mem.word s.roots) r f)
    (kept : Kept (allPages s.mem.word s.roots) s.mem m) (im : Image) (new : im.pagetable = some r)
    (trapframe : im.trapframe = (s.image p).trapframe) :
    Own k X ((s.setImage p im).setMem m) ∧ r ∉ s.roots ∧ mapOf m.word r = f := by
  obtain ⟨out, sp, map⟩ := Spaces.add o kept u
  refine ⟨?_, out, map⟩
  show Spaces k m (s.setImage p im).roots (X + (s.setImage p im).trapframes + s.pipes)
  rwa [roots_insert none new, trapframes_same trapframe]

section Alloc

variable {Q : Option (Fin n) → State n → Prop}

section

variable (o : Own k X s) (bare : (s.image p).pagetable = none)
  (fail : ∀ m, Own k X ((s.freed p).setMem m) → Kept (allPages s.mem.word s.roots) s.mem m →
    Q none ((s.freed p).setMem m))

include o bare fail

theorem wp_undoAlloc : wp (do
      freeproc k p
      return none) E Q s := by
  refine .seq (wp_freeproc o (freeable_none bare) fun m o' kept => ?_)
  rw [freed_roots bare] at kept
  exact fail m o' kept

theorem wp_allocTable
    (ok : ∀ pt m, Own k X ((s.setImage p { s.image p with pagetable := some pt }).setMem m) →
      pt ∉ s.roots → Top k (mapOf m.word pt) tf → (∀ v < trapframePn, mapOf m.word pt v = none) →
      Kept (allPages s.mem.word s.roots) s.mem m →
      Q (some p) ((s.setImage p { s.image p with pagetable := some pt }).setMem m)) :
    wp (do
      let pt ← onMem (procPagetable k tf)
      modify fun s => s.setImage p { s.image p with pagetable := pt }
      match pt with
      | none =>
        freeproc k p
        return none
      | some _ => return some p) E Q s := by
  refine .seq (wp_onMem (wp_procPagetable o.holds (fun m holds kept => ?_)
    fun pt f m u top low kept => ?_))
  · have kept : Kept (allPages s.mem.word s.roots) s.mem m := kept.mono (Multiset.le_add_left ..)
    have o1 : Own k X (s.setMem m) := Spaces.congr o kept holds
    have o2 : Own k X ((s.setImage p { s.image p with pagetable := none }).setMem m) :=
      o1.setImage bare.symm rfl
    have final : (s.setImage p { s.image p with pagetable := none }).freed p = s.freed p :=
      freed_setImage rfl rfl
    have bare' : (((s.setImage p { s.image p with pagetable := none }).setMem m).image p).pagetable =
        none := congrArg Image.pagetable setImage_self
    refine .modify (wp_undoAlloc o2 bare' fun m' o' kept' => ?_)
    replace o' : Own k X
      ((State.freed (s.setImage p { s.image p with pagetable := none }) p).setMem m') := o'
    rw [roots_same bare.symm] at kept'
    show Q none ((State.freed (s.setImage p { s.image p with pagetable := none }) p).setMem m')
    rw [final] at o' ⊢
    exact fail m' o' (kept.allPages_trans kept')
  · have kept : Kept (allPages s.mem.word s.roots) s.mem m := kept.mono (Multiset.le_add_left ..)
    obtain ⟨o', out, map⟩ := o.setPagetable bare u kept { s.image p with pagetable := some pt } rfl rfl
    refine ok pt m o' out ?_ ?_ kept
    · rwa [map]
    · rwa [map]

theorem wp_allocFrame (noFrame : (s.image p).trapframe = none)
    (ok : ∀ tf pt m, Own k X ((s.setImage p
      { s.image p with trapframe := some tf, pagetable := some pt }).setMem m) →
      pt ∉ s.roots → Top k (mapOf m.word pt) tf → (∀ v < trapframePn, mapOf m.word pt v = none) →
      Kept (allPages s.mem.word s.roots) s.mem m → Q (some p) ((s.setImage p
        { s.image p with trapframe := some tf, pagetable := some pt }).setMem m)) :
    wp (do
      let tf ← onMem kalloc
      modify fun s => s.setImage p { s.image p with trapframe := tf }
      match tf with
      | none =>
        freeproc k p
        return none
      | some tf =>
        let pt ← onMem (procPagetable k tf)
        modify fun s => s.setImage p { s.image p with pagetable := pt }
        match pt with
        | none =>
          freeproc k p
          return none
        | some _ => return some p) E Q s := by
  have freed : ∀ tf, (s.setImage p { s.image p with trapframe := tf }).freed p = s.freed p :=
    fun tf => freed_setImage rfl rfl
  have bare' : ∀ tf, ((s.setImage p { s.image p with trapframe := tf }).image p).pagetable = none :=
    fun tf => by rwa [setImage_self]
  have roots : ∀ tf, (s.setImage p { s.image p with trapframe := tf }).roots = s.roots := fun tf =>
    roots_same rfl
  refine .seq (o.wp_kalloc ?_ fun tf m o1 kept => ?_)
  · refine .modify ?_
    refine wp_undoAlloc (o.setImage rfl noFrame.symm) (bare' none) fun m o' kept => ?_
    rw [freed] at o' ⊢
    rw [roots] at kept
    exact fail m o' kept
  · have o2 : Own k X ((s.setImage p { s.image p with trapframe := some tf }).setMem m) :=
      o1.giveTrapframe rfl noFrame rfl
    have final : ∀ pt, (s.setImage p { s.image p with trapframe := some tf }).setImage p
        { (s.setImage p { s.image p with trapframe := some tf }).image p with
          pagetable := some pt } =
        s.setImage p { s.image p with trapframe := some tf, pagetable := some pt } := fun pt => by
      rw [setImage_setImage, setImage_self]
    have freed := freed (some tf)
    have roots := roots (some tf)
    have bare' := bare' (some tf)
    refine .modify ?_
    show wp _ E Q ((s.setImage p { s.image p with trapframe := some tf }).setMem m)
    generalize s.setImage p { s.image p with trapframe := some tf } = t at *
    refine wp_allocTable o2 bare' (fun m' o' kept' => ?_) fun pt m' o' out top low kept' => ?_
    · replace o' : Own k X ((t.freed p).setMem m') := o'
      replace kept' : Kept (allPages m.word t.roots) m m' := kept'
      show Q none ((t.freed p).setMem m')
      rw [freed] at o' ⊢
      rw [roots] at kept'
      exact fail m' o' (kept.allPages_trans kept')
    · replace out : pt ∉ t.roots := out
      replace kept' : Kept (allPages m.word t.roots) m m' := kept'
      rw [roots] at out
      rw [roots] at kept'
      replace o' : Own k X ((t.setImage p { t.image p with pagetable := some pt }).setMem m') := o'
      show Q (some p) ((t.setImage p { t.image p with pagetable := some pt }).setMem m')
      rw [final] at o' ⊢
      exact ok tf pt m' o' out top low (kept.allPages_trans kept')

end

theorem wp_allocproc (o : Own k X s)
    (blank : ∀ p, (s.proc p).state = .unused →
      (s.image p).pagetable = none ∧ (s.image p).trapframe = none)
    (full : Q none s)
    (fail : ∀ p m, (s.proc p).state = .unused →
      Own k X (((s.setTable (s.table.take p)).freed p).setMem m) →
      Kept (allPages s.mem.word s.roots) s.mem m →
      Q none (((s.setTable (s.table.take p)).freed p).setMem m))
    (ok : ∀ p tf pt m, (s.proc p).state = .unused → Own k X ((s.begun p tf pt).setMem m) →
      pt ∉ s.roots → Top k (mapOf m.word pt) tf → (∀ v < trapframePn, mapOf m.word pt v = none) →
      Kept (allPages s.mem.word s.roots) s.mem m → Q (some p) ((s.begun p tf pt).setMem m)) :
    wp (allocproc k) E Q s := by
  refine .get ?_
  cases found : s.table.findUnused with
  | none => exact full
  | some p =>
    have unused : (s.proc p).state = .unused := Table.findUnused_some found
    obtain ⟨bare, noFrame⟩ := blank p unused
    refine .modify ?_
    exact wp_allocFrame (o.setTable (s.table.take p)) bare (fun m => fail p m unused) noFrame
      fun tf pt m => ok p tf pt m unused

end Alloc

section Grow

/-- The user pages of the page table `r` change from those of size `sz` to those of size `sz'`, and
the other page tables with their pages stay. -/
structure Resized (s : State n) (r : Addr) (sz sz' : UInt64) (m : Mem) : Prop where
  small : sz' ≤ trapframeVa
  others : Kept (allPages s.mem.word (s.roots.erase r)) s.mem m
  high : ∀ v, trapframePn ≤ v → mapOf m.word r v = mapOf s.mem.word r v
  covers : (mapOf s.mem.word r).Covers (pageCount sz) → (mapOf m.word r).Covers (pageCount sz')

variable {sz sz' : UInt64}

theorem Own.put (o : Own k X s) (mem : r ∈ s.roots)
    (kept : Kept (X + s.trapframes + s.pipes + allPages s.mem.word (s.roots.erase r)) s.mem m)
    (u : User k m (X + s.trapframes + s.pipes + allPages s.mem.word (s.roots.erase r)) r f) :
    Own k X (s.setMem m) ∧ mapOf m.word r = f :=
  Spaces.put o mem kept u

theorem setImage_eq : s.setImage p (s.image p) = s := by
  unfold State.setImage
  rw [update_eq_self]

theorem pagetable_eq (at_ : (s.image p).pagetable = some r) : s.pagetable p = r := by
  rw [State.pagetable, at_]
  rfl

theorem toNat_extend (i : Int32) : (i.toInt64.toUInt64.toNat : Int) = i.toInt % 2 ^ 64 := by
  rw [← i.toInt_toInt64]
  show (i.toInt64.toBitVec.toNat : Int) = i.toInt64.toBitVec.toInt % ((2 ^ 64 : Nat) : Int)
  rw [BitVec.toInt_eq_toNat_bmod, Int.bmod_emod]
  omega

/-- The sum of `growproc`, which wraps around only below 0. -/
theorem toNat_add_extend {i : Int32} (small : sz ≤ trapframeVa) :
    ((sz + i.toInt64.toUInt64).toNat : Int) =
      if 0 ≤ sz.toNat + i.toInt then sz.toNat + i.toInt else sz.toNat + i.toInt + 2 ^ 64 := by
  rw [UInt64.le_iff_toNat_le, trapframeVa_toNat] at small
  have := toNat_extend i
  have := i.toInt_lt
  have := i.le_toInt
  rw [UInt64.toNat_add]
  split <;> omega

/-- What `growproc` with the argument `i` reports, and the user pages of the page table `r` that it
keeps and adds. -/
structure Sized (m : Mem) (r : Addr) (sz : UInt64) (i : Int32) (b : Bool) (sz' : UInt64)
    (m' : Mem) : Prop where
  fails : b = false → sz' = sz ∧ mapOf m'.word r = mapOf m.word r
  size : b = true → 0 ≤ sz.toNat + i.toInt → (sz'.toNat : Int) = sz.toNat + i.toInt
  kept : ∀ v e, v < pageCount sz → v < pageCount sz' → mapOf m.word r v = some e →
    mapOf m'.word r v = some e ∧ m'.word (pte2pa e) = m.word (pte2pa e)
  fresh : ∀ v e, pageCount sz ≤ v → v < pageCount sz' → mapOf m'.word r v = some e →
    m'.word (pte2pa e) = fun _ => 0

theorem wp_growproc {Q : Bool → State n → Prop} (o : Own k X s)
    (at_ : (s.image p).pagetable = some r) (top : Top k (mapOf s.mem.word r) tf)
    (small : (s.image p).sz ≤ trapframeVa)
    (err : (mapOf s.mem.word r).Covers (pageCount (s.image p).sz) ∨ ∀ e, E e)
    (next : ∀ b sz' m, Own k X ((s.setImage p { s.image p with sz := sz' }).setMem m) →
      Resized s r (s.image p).sz sz' m → Sized s.mem r (s.image p).sz i b sz' m →
      Q b ((s.setImage p { s.image p with sz := sz' }).setMem m)) :
    wp (growproc k p i) E Q s := by
  have mem := roots_mem at_
  have u := o.focus mem
  have le := pageCount_le small
  have sum := toNat_add_extend (i := i) small
  have low : (s.image p).sz.toNat < 2 ^ 38 := by
    rw [le_iff_toNat_le, trapframeVa_toNat] at small
    omega
  -- the size stays as it is
  have same : ∀ {b m}, Own k X (s.setMem m) → Resized s r (s.image p).sz (s.image p).sz m →
      Sized s.mem r (s.image p).sz i b (s.image p).sz m → Q b (s.setMem m) := by
    intro b m o' resized sized
    have go := next b (s.image p).sz m (by rwa [setImage_eq]) resized sized
    rwa [show ({ s.image p with sz := (s.image p).sz } : Image) = s.image p from rfl,
      setImage_eq] at go
  refine .get ?_
  rw [pagetable_eq at_]
  refine wp_ite (fun pos => ?_) fun npos => wp_ite (fun neg => ?_) fun nneg => ?_
  · have pos : 0 < i.toInt := by simpa using Int32.lt_iff_toInt_lt.mp pos
    refine .seq (wp_onMem (wp_uvmalloc u (by simp [top.trapframe]) small (by decide) err
      (fun m u' kept => ?_) fun sz' g m nz eq small' u' grown fresh kept => ?_))
    · obtain ⟨o', map⟩ := o.put mem kept.left u'
      rw [if_pos rfl]
      refine same o' ⟨small, kept.left.mono (Multiset.le_add_left ..), fun v _ => by rw [map],
        fun cov => by rwa [map]⟩ ⟨fun _ => ⟨rfl, map⟩, (by intros; contradiction),
          fun v e hv _ he => ?_, fun v e _ _ => ?_⟩
      · rw [map]
        exact ⟨he, kept _ (mem_add.mpr (.inr (Map.mem_user (by omega) he)))⟩
      · omega
    · obtain ⟨o', map⟩ := o.put mem kept.left u'
      have le' := pageCount_le small'
      rw [if_neg (by rw [lt_iff_toNat_lt]; omega)] at eq
      have up : pageCount (s.image p).sz ≤ pageCount sz' := by
        rw [pageCount, pageCount, eq]
        omega
      rw [if_neg nz]
      refine .modify (next true sz' m (o'.setImage rfl rfl) ⟨small',
        kept.left.mono (Multiset.le_add_left ..), fun v hv => ?_, fun cov => ?_⟩
        ⟨(by intros; contradiction), fun _ nonneg => ?_,
          fun v e hv _ he => ?_, fun v e lo hi he => ?_⟩)
      · rw [map, grown.same v (by omega)]
      · rw [map]
        exact grown.covers up cov
      · rw [eq, sum, if_pos nonneg]
      · rw [map, grown.same v (by omega)]
        exact ⟨he, kept _ (mem_add.mpr (.inr (Map.mem_user (by omega) he)))⟩
      · rw [map] at he
        exact (fresh v e lo hi he).1
  · have neg : i.toInt < 0 := by simpa using Int32.lt_iff_toInt_lt.mp neg
    refine .seq (wp_onMem (wp_uvmdealloc u small (err.imp (fun cov v _ hv => ?_) id)
      fun sz' m eq u' kept => ?_))
    · exact (cov v (by omega)).mpr hv
    · obtain ⟨o', map⟩ := o.put mem kept.left u'
      have down : sz' ≤ (s.image p).sz := by
        rw [eq]
        split
        · exact UInt64.le_refl _
        · exact UInt64.le_of_lt (UInt64.not_le.mp ‹_›)
      have pages : pageCount sz' ≤ pageCount (s.image p).sz := by
        have := UInt64.le_iff_toNat_le.mp down
        rw [pageCount, pageCount]
        omega
      refine .modify (next true sz' m (o'.setImage rfl rfl)
        ⟨UInt64.le_trans down small, kept.left.mono (Multiset.le_add_left ..), fun v hv => ?_,
          fun cov v hv => ?_⟩
        ⟨(by intros; contradiction), fun _ nonneg => ?_,
          fun v e _ hv he => ?_, fun v e lo hi => ?_⟩)
      · rw [map, Map.erase, if_neg (by omega)]
      · rw [map, Map.erase]
        split
        next out => exact ⟨fun ne => absurd rfl ne, fun low => by omega⟩
        next inside =>
          rw [cov v hv]
          omega
      · rw [if_pos nonneg] at sum
        rw [if_neg (by rw [UInt64.le_iff_toNat_le]; omega)] at eq
        rw [eq, sum]
      · have here : (mapOf s.mem.word r).erase (pageCount sz')
            (pageCount (s.image p).sz - pageCount sz') v = some e := by
          rw [Map.erase, if_neg (by omega), he]
        rw [map]
        exact ⟨here, kept _ (Multiset.mem_add.mpr (.inr (Map.mem_user (by omega) here)))⟩
      · omega
  · have zero : i.toInt = 0 := by
      have := mt Int32.lt_iff_toInt_lt.mpr npos
      have := mt Int32.lt_iff_toInt_lt.mpr nneg
      simp only [Int32.toInt_zero] at *
      omega
    refine .modify ?_
    refine next true _ s.mem (by rwa [setImage_eq])
      ⟨small, .refl, fun _ _ => rfl, fun cov => cov⟩
      ⟨(by intros; contradiction), fun _ _ => by omega,
        fun _ _ _ _ he => ⟨he, rfl⟩, fun _ _ _ _ => by omega⟩

end Grow

section Copy

theorem Own.wp_user {c : M α} {Q : α → State n → Prop} (o : Own k X s) (mem : r ∈ s.roots)
    (run : ∀ R, User k s.mem R r (mapOf s.mem.word r) → wp c E
      (fun _ m => User k m R r (mapOf s.mem.word r) ∧ Kept R s.mem m) s.mem)
    (next : ∀ a m, Own k X (s.setMem m) → (∀ r' ∈ s.roots, mapOf m.word r' = mapOf s.mem.word r') →
      Kept (allPages s.mem.word (s.roots.erase r)) s.mem m → Q a (s.setMem m)) :
    wp (onMem c) E Q s := by
  refine wp_onMem ((run _ (o.focus mem)).mono (fun a m ⟨u, kept⟩ => ?_) fun _ => id)
  obtain ⟨o', map⟩ := o.put mem kept u
  have others : Kept (allPages s.mem.word (s.roots.erase r)) s.mem m :=
    kept.mono (Multiset.le_add_left ..)
  refine next a m o' (fun r' hr' => ?_) others
  by_cases same : r' = r
  · rw [same, map]
  · exact (others.space (mem_erase.mpr ⟨same, hr'⟩)).mapOf_eq

theorem Own.wp_copyout {src : List UInt8} {Q : Bool → State n → Prop}
    (o : Own k X s) (at_ : (s.image p).pagetable = some r) (top : Top k (mapOf s.mem.word r) tf)
    (next : ∀ b m, Own k X (s.setMem m) → (∀ r' ∈ s.roots, mapOf m.word r' = mapOf s.mem.word r') →
      Kept (allPages s.mem.word (s.roots.erase r)) s.mem m → Q b (s.setMem m)) :
    wp (onMem (copyout (s.pagetable p) dstva src)) E Q s := by
  rw [pagetable_eq at_]
  refine o.wp_user (roots_mem at_) (fun R u => ?_) next
  exact Vm.wp_copyout u top fun _ m u' kept => ⟨u', kept⟩

end Copy

end Processes

end Xv6.Proc
