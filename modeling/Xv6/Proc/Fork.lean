import Xv6.Proc.Invariant

/-! `fork` and `userinit`, which make a process with an address space of its own. -/

namespace Xv6.Proc

open Kernel Vm Wp Tally Multiset Finset

variable {n : Nat} {k : Symbols} {s s' : State n} {p q np : Fin n} {X boot lost : Multiset Addr}
  {r tf pt x : Addr} {m : Mem} {E : Stop → Prop} {tight lone : Prop} {sz : UInt64}

section Frames

theorem trapframe_eq (at_ : (s.image p).trapframe = some tf) : s.trapframe p = tf := by
  rw [State.trapframe, at_]
  rfl

variable {S : Finset Addr} {Y : Multiset Addr} {Q : Unit → State n → Prop}

theorem wp_setTrapframe (sp : Spaces k s.mem S Y) (mem : tf ∈ Y)
    (at_ : (s.image p).trapframe = some tf)
    (next : ∀ m, Spaces k m S Y → Kept (allPages s.mem.word S) s.mem m → Q () (s.setMem m)) :
    wp (setTrapframe p f v) E Q s := by
  refine .get (wp_onMem (wp_modify.mpr ?_))
  rw [trapframe_eq at_]
  obtain ⟨sp', kept⟩ := sp.write mem (Function.update (s.mem.word tf) f v)
  exact next _ sp' kept

theorem Own.wp_setTrapframe (o : Own k X s)
    (at_ : (s.image p).trapframe = some tf)
    (next : ∀ m, Own k X (s.setMem m) → Kept (allPages s.mem.word s.roots) s.mem m →
      Q () (s.setMem m)) : wp (setTrapframe p f v) E Q s :=
  Proc.wp_setTrapframe o (held_trapframe X at_) at_ next

theorem Own.wp_copyTrapframe (o : Own k X s) (at_ : (s.image np).trapframe = some tf)
    (next : ∀ m, Own k X (s.setMem m) → Kept (allPages s.mem.word s.roots) s.mem m →
      Q () (s.setMem m)) : wp (copyTrapframe np p) E Q s := by
  refine .get (wp_onMem (wp_modify.mpr ?_))
  rw [trapframe_eq at_]
  obtain ⟨o', kept⟩ := o.write (held_trapframe X at_) fun i =>
    if i.val < 36 then s.mem.word (s.trapframe p) i else s.mem.word tf i
  exact next _ o' kept

end Frames

section New

/-- The state after `np` was found and given up again, but for memory. -/
def State.undone (s : State n) (np : Fin n) : State n :=
  s.setTable ((s.table.take np).freeproc np)

theorem freed_blank (im : Image) (blank : (s.image np).Blank)
    (kstack : im.kstack = (s.image np).kstack) (ofile : im.ofile = (s.image np).ofile) :
    State.freed ((s.setTable t).setImage np im) np = s.setTable (t.freeproc np) := by
  have same : ({ im with trapframe := none, pagetable := none, sz := 0 } : Image) = s.image np := by
    cases h : s.image np
    rw [h] at blank kstack ofile
    obtain ⟨pagetable, trapframe, sz⟩ := blank
    rw [Image.mk.injEq]
    exact ⟨kstack, sz.symm, pagetable.symm, trapframe.symm, ofile⟩
  rw [State.freed, setImage_self, setImage_setImage, same]
  show ((s.setImage np (s.image np)).setTable t).setTable (t.freeproc np) = _
  rw [setImage_eq]
  rfl

theorem Inv.undone (I : Inv k boot tight lone s) (alive : (s.proc p).state.alive = true)
    (unused : (s.proc np).state = .unused) (kept : Kept (allPages s.mem.word s.roots) s.mem m)
    (own : ∃ lost, (lone → lost = 0) ∧ Own k (boot + lost) ((s.undone np).setMem m)) :
    Inv k boot tight lone ((s.undone np).setMem m) := by
  have I1 : Inv k boot tight lone (s.setMem m) :=
    I.setMem alive (fun r hr => (kept.space hr).mapOf_eq) own
  have state : ∀ q, (((s.table.take np).freeproc np).proc q).state = (s.proc q).state := by
    intro q
    rw [Table.freeproc_proc]
    split
    next same => rw [same, unused]
    next ne =>
      rw [Table.take_proc, if_neg ne]
      rfl
  exact I1.setTable (fun q => iff_of_eq (congrArg (· = ProcState.unused) (state q)))
    fun q zombie => .inl ((state q).symm.trans zombie)

/-- The state after `np` has become a process of size `sz`, but for memory. -/
def State.child (s : State n) (np : Fin n) (tf pt : Addr) (sz : UInt64) : State n :=
  (s.setTable (s.table.take np)).setImage np
    { s.image np with trapframe := some tf, pagetable := some pt, sz := sz }

/-- A process that was not there has got a page table of its own. -/
theorem Inv.child (I : Inv k before tight lone s) (unused : (s.proc np).state = .unused)
    (out : pt ∉ s.roots) (st : Still np ((s.child np tf pt sz).setMem m) s')
    (kept : Kept (allPages s.mem.word s.roots) s.mem m) (small : sz ≤ trapframeVa)
    (top : Top k (mapOf m.word pt) tf) (covers : tight → (mapOf m.word pt).Covers (pageCount sz))
    (files : Files 0 s') (own : ∃ lost, (lone → lost = 0) ∧ Own k (boot + lost) s')
    (alive : v.state.alive = true) : Inv k boot tight lone (s'.setTable (s'.table.set np v)) := by
  obtain ⟨lost, none, o⟩ := own
  have bare := ((I.placed np).blank unused).pagetable
  have self : (s.child np tf pt sz).image np =
    { s.image np with trapframe := some tf, pagetable := some pt, sz := sz } := setImage_self
  have pagetable : (s'.image np).pagetable = some pt := (st.pagetable np).trans (by
    show ((s.child np tf pt sz).image np).pagetable = some pt
    rw [self])
  have trapframe : (s'.image np).trapframe = some tf := (st.trapframe np).trans (by
    show ((s.child np tf pt sz).image np).trapframe = some tf
    rw [self])
  have size : (s'.image np).sz = sz := (st.sz np).trans (by
    show ((s.child np tf pt sz).image np).sz = sz
    rw [self])
  have others : ∀ q, q ≠ np → s'.image q = s.image q := fun q ne =>
    (st.image q ne).trans (setImage_of_ne ne)
  have roots : (s.child np tf pt sz).roots = insert pt s.roots :=
    roots_insert (s := s.setTable (s.table.take np)) bare rfl
  have map : mapOf s'.mem.word pt = mapOf m.word pt :=
    st.maps pt (by show pt ∈ (s.child np tf pt sz).roots; rw [roots]; exact mem_insert_self ..)
  have maps : ∀ q r, q ≠ np → (s.image q).pagetable = some r →
      mapOf s'.mem.word r = mapOf s.mem.word r := by
    intro q r ne at_
    have mem := roots_mem at_
    rw [st.maps r (by
      show r ∈ (s.child np tf pt sz).roots
      rw [roots]
      exact mem_insert_of_mem mem)]
    exact (kept.space mem).mapOf_eq
  have only : ∀ q, (s'.image q).pagetable = some pt → q = np := by
    intro q at_
    by_contra ne
    rw [others q ne] at at_
    exact out (roots_mem at_)
  refine I.update (p := np) others (fun q ne => .inl ?_)
    (fun q r ne at_ v _ => congrFun (maps q r ne at_) v) (fun _ => maps)
    (.inr fun q r _ at_ => (nomatch bare.symm.trans at_)) ?_ (files.of_same rfl rfl rfl)
    ⟨lost, none, o.setTable _⟩
  · show ((s'.table.set np v).proc q).state = (s.proc q).state
    rw [Table.set_of_ne ne, st.table]
    show ((s.table.take np).proc q).state = _
    rw [Table.take_proc, if_neg ne]
    rfl
  · have state : ((s'.setTable (s'.table.set np v)).proc np).state = v.state :=
      congrArg Kernel.Proc.state Table.set_self
    refine .own (by rwa [state]) pagetable trapframe only ?_ ?_ fun t => ?_
    · show (s'.image np).sz ≤ trapframeVa
      rwa [size]
    · show Top k (mapOf s'.mem.word pt) tf
      rwa [map]
    · show (mapOf s'.mem.word pt).Covers (pageCount (s'.image np).sz)
      rw [map, size]
      exact covers t

end New

section Fork

/-- `np` is the new child of `p`, with its size and copies of its pages, and every other address
space stays as it was. -/
structure Forked (s s' : State n) (p np : Fin n) : Prop where
  unused : (s.proc np).state = .unused
  parent : (s'.proc np).parent = some p
  others : ∀ q, q ≠ np → s'.image q = s.image q
  kept : Kept (allPages s.mem.word s.roots) s.mem s'.mem
  sz : (s'.image np).sz = (s.image p).sz
  table : ∃ r pt, (s.image p).pagetable = some r ∧ (s'.image np).pagetable = some pt ∧
    pt ∉ s.roots ∧ ∀ v < pageCount (s.image p).sz,
      Copied s'.mem (mapOf s.mem.word r) (mapOf s'.mem.word pt) v

/-- What is left of a `fork` that fails. -/
structure Unforked (s s' : State n) : Prop where
  image : s'.image = s.image
  kept : Kept (allPages s.mem.word s.roots) s.mem s'.mem

theorem Copied.trans (c : Copied m f h v) (low : v < trapframePn) (kept : Kept f.user m m')
    (kept' : Kept h.user m m') : Copied m' f h v := by
  obtain ⟨e, e', he, he', flags, words⟩ := c
  refine ⟨e, e', he, he', flags, ?_⟩
  rw [kept _ (Map.mem_user low he), kept' _ (Map.mem_user low he'), words]

variable {Q : Option UInt32 → State n → Prop}

theorem Inv.wp_forkUndo (I : Inv k boot tight lone s) (alive : (s.proc p).state.alive = true)
    (unused : (s.proc np).state = .unused) (out : pt ∉ s.roots) (none : lone → lost = 0)
    (o : Own k (boot + lost) ((s.begun np tf pt).setMem m1)) (top : Top k (mapOf m1.word pt) tf)
    (low : ∀ v < trapframePn, mapOf m1.word pt v = .none)
    (kept : Kept (allPages s.mem.word s.roots) s.mem m1)
    (fail : ∀ s', Inv k boot tight lone s' → Unforked s s' → Q .none s') : wp (do
      freeproc k np
      return .none) E Q ((s.begun np tf pt).setMem m1) := by
  have blank := (I.placed np).blank unused
  have self : (s.begun np tf pt).image np =
    { s.image np with trapframe := some tf, pagetable := some pt } := setImage_self
  have final : (s.begun np tf pt).freed np = s.undone np := freed_blank _ blank rfl rfl
  have free : Freeable k E ((s.begun np tf pt).setMem m1) np := by
    refine ⟨fun q r ne at_ at' => ?_, fun r at_ => ?_⟩
    · replace at_ : ((s.begun np tf pt).image np).pagetable = some r := at_
      rw [self] at at_
      cases at_
      replace at' : ((s.begun np tf pt).image q).pagetable = some pt := at'
      rw [show (s.begun np tf pt).image q = s.image q from setImage_of_ne ne] at at'
      exact out (roots_mem at')
    · replace at_ : ((s.begun np tf pt).image np).pagetable = some r := at_
      show (∃ tf, Top k (mapOf m1.word r) tf) ∧ ((s.begun np tf pt).image np).sz ≤ _ ∧
        ((mapOf m1.word r).Covers (pageCount ((s.begun np tf pt).image np).sz) ∨ _)
      rw [self] at at_ ⊢
      cases at_
      rw [blank.sz]
      exact ⟨⟨tf, top⟩, by decide, .inl (Map.covers_zero low)⟩
  refine .seq (Proc.wp_freeproc o free fun m2 o2 kept2 => ?_)
  replace o2 : Own k (boot + lost) (((s.begun np tf pt).freed np).setMem m2) := o2
  replace kept2 : Kept (allPages m1.word ((s.begun np tf pt).freed np).roots) m1 m2 := kept2
  show Q .none (((s.begun np tf pt).freed np).setMem m2)
  rw [final] at o2 kept2 ⊢
  have kept2 : Kept (allPages s.mem.word s.roots) s.mem m2 := kept.allPages_trans kept2
  exact fail _ (I.undone alive unused kept2 ⟨lost, none, o2⟩) ⟨rfl, kept2⟩

theorem begun_roots (bare : (s.image np).pagetable = none) :
    (s.begun np tf pt).roots = insert pt s.roots :=
  roots_insert (s := s.setTable (s.table.take np)) bare rfl

theorem child_eq : (s.begun np tf pt).setImage np { (s.begun np tf pt).image np with sz := sz } =
    s.child np tf pt sz := by
  rw [State.begun, setImage_self, setImage_setImage]
  rfl

theorem Inv.wp_forkFinish {pid : UInt32} (I : Inv k boot tight lone s)
    (at_ : (s.image p).pagetable = some r) (alive : (s.proc p).state.alive = true)
    (unused : (s.proc np).state = .unused) (out : pt ∉ s.roots) (none : lone → lost = 0)
    (o : Own k (boot + lost) ((s.child np tf pt (s.image p).sz).setMem m1))
    (top : Top k (mapOf m1.word pt) tf)
    (covers : (mapOf m1.word pt).Covers (pageCount (s.image p).sz))
    (copied : ∀ v < pageCount (s.image p).sz,
      Copied m1 (mapOf s.mem.word r) (mapOf m1.word pt) v)
    (kept : Kept (allPages s.mem.word s.roots) s.mem m1)
    (ok : ∀ pid s', Inv k boot tight lone s' → Forked s s' p np → Q (some pid) s') :
    wp (do
      copyTrapframe np p
      setTrapframe np tfA0 0
      (List.finRange nofile).forM fun fd => do
        match ((← get).image p).ofile fd with
        | some f =>
          filedup f
          modify fun s => s.setOfile np fd (some f)
        | .none => return
      modify fun s => s.setTable
        (s.table.set np { s.proc np with parent := some p, state := .runnable })
      return some pid) E Q ((s.child np tf pt (s.image p).sz).setMem m1) := by
  have small := ((I.placed p).seat r at_).small
  have le := pageCount_le small
  have bare := ((I.placed np).blank unused).pagetable
  have ne : np ≠ p := by
    rintro rfl
    rw [unused] at alive
    cases alive
  have self : (s.child np tf pt (s.image p).sz).image np =
    { s.image np with trapframe := some tf, pagetable := some pt, sz := (s.image p).sz } :=
    setImage_self
  have frame : ((s.child np tf pt (s.image p).sz).image np).trapframe = some tf := by rw [self]
  have roots : (s.child np tf pt (s.image p).sz).roots = insert pt s.roots :=
    roots_insert (s := s.setTable (s.table.take np)) bare rfl
  -- the trapframe is no part of an address space
  refine .seq (o.wp_copyTrapframe frame fun m2 o2 kept2 => ?_)
  refine .seq (o2.wp_setTrapframe frame fun m3 o3 kept3 => ?_)
  replace kept2 : Kept (allPages m1.word (s.child np tf pt (s.image p).sz).roots) m1 m2 := kept2
  have kept3 := kept2.allPages_trans kept3
  rw [roots] at kept3
  have mapped : mapOf m3.word pt = mapOf m1.word pt :=
    (kept3.space (mem_insert_self ..)).mapOf_eq
  have old : Kept (allPages s.mem.word s.roots) s.mem m3 :=
    kept.allPages_trans (kept3.subset (subset_insert ..))
  have copied3 : ∀ v < pageCount (s.image p).sz,
      Copied m3 (mapOf s.mem.word r) (mapOf m1.word pt) v := by
    intro v hv
    refine Copied.trans (copied v hv) (by omega) ?_ ?_
    · have mem := roots_mem at_
      have here := kept3.space (mem_insert_of_mem mem)
      rw [spacePages, (kept.space mem).mapOf_eq] at here
      exact here.left
    · exact (kept3.space (mem_insert_self ..)).left
  have F3 : Files 0 ((s.child np tf pt (s.image p).sz).setMem m3) := by
    refine I.files.of_same rfl rfl ?_
    funext x
    obtain ⟨q, fd⟩ := x
    show ((s.child np tf pt (s.image p).sz).image q).ofile fd = _
    by_cases hq : q = np
    · rw [hq, self]
      rfl
    · rw [show (s.child np tf pt (s.image p).sz).image q = s.image q from setImage_of_ne hq]
      rfl
  refine .seq (wp_forkFiles (List.finRange nofile) F3 o3 ne (List.nodup_finRange _)
    (fun fd _ => ?_) fun s4 F4 o4 st4 mem4 => ?_)
  · show ((s.child np tf pt (s.image p).sz).image np).ofile fd = .none
    rw [self]
    exact (I.placed np).closed (.inl unused) fd
  replace mem4 : s4.mem = m3 := mem4
  refine .modify (ok pid _ (I.child unused out st4 old small ?_ (fun _ => ?_) F4
    ⟨lost, none, o4⟩ rfl) ⟨unused, ?_, fun q hq => ?_, ?_, ?_, r, pt, at_, ?_, out, fun v hv => ?_⟩)
  · rwa [mapped]
  · rwa [mapped]
  · exact congrArg Kernel.Proc.parent Table.set_self
  · exact (st4.image q hq).trans (setImage_of_ne hq)
  · show Kept _ s.mem s4.mem
    rwa [mem4]
  · refine (st4.sz np).trans ?_
    show ((s.child np tf pt (s.image p).sz).image np).sz = _
    rw [self]
  · refine (st4.pagetable np).trans ?_
    show ((s.child np tf pt (s.image p).sz).image np).pagetable = _
    rw [self]
  · show Copied s4.mem (mapOf s.mem.word r) (mapOf s4.mem.word pt) v
    rw [mem4, mapped]
    exact copied3 v hv

theorem Inv.wp_fork (I : Inv k boot tight lone s) (at_ : (s.image p).pagetable = some r)
    (alive : (s.proc p).state.alive = true) (err : tight ∨ ∀ e, E e)
    (fail : ∀ s', Inv k boot tight lone s' → Unforked s s' → Q none s')
    (ok : ∀ np pid s', Inv k boot tight lone s' → Forked s s' p np → Q (some pid) s') :
    wp (fork k p) E Q s := by
  obtain ⟨lost, none, o⟩ := I.own
  have seat := (I.placed p).seat r at_
  refine .seq (wp_allocproc o (fun q unused => ?_) ?_ (fun np m unused o1 kept => ?_)
    fun np tf pt m1 unused o1 out top low kept => ?_)
  · have blank := (I.placed q).blank unused
    exact ⟨blank.pagetable, blank.trapframe⟩
  · exact fail s I ⟨rfl, .refl⟩
  · have final : State.freed (s.setTable (s.table.take np)) np = s.undone np := by
      have := freed_blank (s := s) (t := s.table.take np) (s.image np)
        ((I.placed np).blank unused) rfl rfl
      rwa [show (s.setTable (s.table.take np)).setImage np (s.image np) =
        s.setTable (s.table.take np) from setImage_eq] at this
    rw [final] at o1 ⊢
    exact fail _ (I.undone alive unused kept ⟨lost, none, o1⟩) ⟨rfl, kept⟩
  have bare := ((I.placed np).blank unused).pagetable
  have ne : p ≠ np := by
    rintro rfl
    rw [unused] at alive
    cases alive
  have roots : (s.begun np tf pt).roots = insert pt s.roots := begun_roots bare
  have mem := roots_mem at_
  have parent : (s.begun np tf pt).image p = s.image p := setImage_of_ne ne
  have child : (s.begun np tf pt).image np =
    { s.image np with trapframe := some tf, pagetable := some pt } := setImage_self
  have mem' : r ∈ (s.begun np tf pt).roots.erase pt := by
    rwa [roots, erase_insert out]
  have here : pt ∈ (s.begun np tf pt).roots := by
    rw [roots]
    exact mem_insert_self ..
  have map : mapOf m1.word r = mapOf s.mem.word r := (kept.space mem).mapOf_eq
  have held := spacePages_le (w := m1.word) mem'
  have all : ∀ {Y m2}, Kept (Y + allPages m1.word ((s.begun np tf pt).roots.erase pt)) m1 m2 →
      Kept (allPages s.mem.word s.roots) s.mem m2 := by
    intro Y m2 kept2
    have kept2 := kept2.mono (Multiset.le_add_left ..)
    rw [roots, Finset.erase_insert out] at kept2
    exact kept.allPages_trans kept2
  refine .get (.seq ?_)
  rw [pagetable_eq (s := (s.begun np tf pt).setMem m1) (p := p) (r := r) (by
      show ((s.begun np tf pt).image p).pagetable = _
      rw [parent, at_]),
    pagetable_eq (s := (s.begun np tf pt).setMem m1) (p := np) (r := pt) (by
      show ((s.begun np tf pt).image np).pagetable = _
      rw [child])]
  show wp (onMem (uvmcopy k r pt ((s.begun np tf pt).image p).sz)) E _ _
  rw [parent]
  refine wp_onMem (wp_uvmcopy (o1.tree r (Finset.mem_of_mem_erase mem'))
    ((tablePages_le_space.trans held).trans (Multiset.le_add_left ..))
    (((Multiset.le_add_right ..).trans held).trans (Multiset.le_add_left ..))
    (o1.leaf r (Finset.mem_of_mem_erase mem')) (o1.focus here) low seat.small
    (err.imp_left fun t v hv => ?_) (fun m2 u2 kept2 => ?_) fun h m2 u2 grown copied kept2 => ?_)
  · show mapOf m1.word r v ≠ .none
    rw [map]
    exact (seat.covers t v (by have := pageCount_le seat.small; omega)).mpr hv
  · obtain ⟨o2, map2⟩ := o1.put here kept2 u2
    exact I.wp_forkUndo alive unused out none o2 (by rwa [map2]) (by rwa [map2]) (all kept2) fail
  · obtain ⟨o2, map2⟩ := o1.put here kept2 u2
    have final : ((s.begun np tf pt).setMem m2).setImage np { (s.begun np tf pt).image np with
        sz := ((s.begun np tf pt).image p).sz } = (s.child np tf pt (s.image p).sz).setMem m2 := by
      rw [parent]
      exact congrArg (State.setMem · m2) child_eq
    have o3 : Own k (boot + lost) (((s.begun np tf pt).setMem m2).setImage np
      { (s.begun np tf pt).image np with sz := ((s.begun np tf pt).image p).sz }) :=
      o2.setImage rfl rfl
    refine .modify ?_
    show wp _ E Q (((s.begun np tf pt).setMem m2).setImage np
      { (s.begun np tf pt).image np with sz := ((s.begun np tf pt).image p).sz })
    rw [final] at o3 ⊢
    refine I.wp_forkFinish at_ alive unused out none o3 ⟨?_, ?_⟩ ?_ (fun v hv => ?_) (all kept2)
      fun pid s' => ok np pid s'
    · rw [map2, grown.same _ (by have := pageCount_le seat.small; rw [trampolinePn_eq]; rw [trapframePn_eq] at this; omega)]
      exact top.trampoline
    · rw [map2, grown.same _ (by have := pageCount_le seat.small; omega)]
      exact top.trapframe
    · rw [map2]
      exact grown.covers (Nat.zero_le _) (Map.covers_zero low)
    · rw [map2, ← map]
      exact copied v hv

end Fork

section Boot

theorem Inv.loosen (I : Inv k boot tight lone s) : Inv k boot False lone s := by
  refine ⟨fun p => ?_, I.files, I.own⟩
  obtain ⟨blank, busy, closed, seat⟩ := I.placed p
  refine ⟨blank, busy, closed, fun r at_ => ?_⟩
  obtain ⟨small, top, -, -, alone⟩ := seat r at_
  exact ⟨small, top, nofun, nofun, alone⟩

theorem Inv.start [NeZero n] (holds : Holds k m boot) :
    Inv k boot tight lone (Proc.start m : State n) := by
  have roots : (Proc.start m : State n).roots = ∅ := by
    ext r
    rw [mem_roots]
    exact iff_of_false (fun ⟨_, at_⟩ => (nomatch at_)) (notMem_empty r)
  have trapframes : (Proc.start m : State n).trapframes = 0 := sum_const_zero
  have pipes : (Proc.start m : State n).pipes = 0 := by
    refine eq_zero_of_forall_notMem fun pi hpi => ?_
    obtain ⟨f, w, at_⟩ := mem_pipes.mp hpi
    cases at_
  refine ⟨fun p => ⟨fun _ => ⟨rfl, rfl, rfl⟩, fun busy => absurd rfl busy, fun _ _ => rfl, nofun⟩,
    ⟨fun f => ?_, fun _ _ => rfl, nofun, fun pi w => ?_⟩, 0, fun _ => rfl, ?_⟩
  · show ((0 : Nat) : Int) = tally (fun _ => none) f + 0
    rw [tally_const_none]
    rfl
  · cases w <;> exact iff_of_false nofun fun ⟨_, at_⟩ => (nomatch at_)
  · show Spaces k m (Proc.start m : State n).roots
      (boot + 0 + (Proc.start m : State n).trapframes + (Proc.start m : State n).pipes)
    rw [roots, trapframes, pipes]
    refine ⟨?_, fun r hr => absurd hr (notMem_empty r),
      fun r hr => absurd hr (notMem_empty r)⟩
    rw [allPages, sum_empty]
    simpa using holds

theorem Inv.wp_firstFinish {Q : Unit → State n → Prop}
    (I : Inv k before tight lone s) (unused : (s.proc np).state = .unused) (out : pt ∉ s.roots)
    (none : lone → lost = 0) (o : Own k (boot + lost) ((s.begun np tf pt).setMem m))
    (kept : Kept (allPages s.mem.word s.roots) s.mem m) (top : Top k (mapOf m.word pt) tf)
    (covers : tight → (mapOf m.word pt).Covers (pageCount pgsize))
    (next : ∀ s', Inv k boot tight lone s' → (s'.image np).pagetable = some pt →
      s'.table.initproc = s.table.initproc → mapOf s'.mem.word pt = mapOf m.word pt → Q () s') :
    wp (do
      modify fun s => s.setImage np { s.image np with sz := pgsize }
      setTrapframe np tfEpc 0
      setTrapframe np tfSp pgsize
      modify fun s => s.setState np .runnable) E Q ((s.begun np tf pt).setMem m) := by
  have bare := ((I.placed np).blank unused).pagetable
  have self : (s.child np tf pt pgsize).image np =
    { s.image np with trapframe := some tf, pagetable := some pt, sz := pgsize } := setImage_self
  have frame : ((s.child np tf pt pgsize).image np).trapframe = some tf := by rw [self]
  have roots : (s.child np tf pt pgsize).roots = insert pt s.roots :=
    roots_insert (s := s.setTable (s.table.take np)) bare rfl
  have o1 : Own k (boot + lost) (((s.begun np tf pt).setImage np
    { (s.begun np tf pt).image np with sz := pgsize }).setMem m) := o.setImage rfl rfl
  refine .modify ?_
  show wp _ E Q (((s.begun np tf pt).setImage np
    { (s.begun np tf pt).image np with sz := pgsize }).setMem m)
  rw [child_eq] at o1 ⊢
  refine .seq (o1.wp_setTrapframe frame fun m2 o2 kept2 => ?_)
  refine .seq (o2.wp_setTrapframe frame fun m3 o3 kept3 => wp_modify.mpr ?_)
  replace kept2 : Kept (allPages m.word (s.child np tf pt pgsize).roots) m m2 := kept2
  have kept3 := kept2.allPages_trans kept3
  rw [roots] at kept3
  have mapped : mapOf m3.word pt = mapOf m.word pt :=
    (kept3.space (mem_insert_self ..)).mapOf_eq
  have old : Kept (allPages s.mem.word s.roots) s.mem m3 :=
    kept.allPages_trans (kept3.subset (subset_insert ..))
  have F3 : Files 0 ((s.child np tf pt pgsize).setMem m3) := by
    refine I.files.of_same rfl rfl ?_
    funext ⟨q, fd⟩
    show ((s.child np tf pt pgsize).image q).ofile fd = _
    by_cases hq : q = np
    · rw [hq, self]
      rfl
    · rw [show (s.child np tf pt pgsize).image q = s.image q from setImage_of_ne hq]
      rfl
  refine next _ (I.child unused out (.refl np _) old (by decide) ?_ (fun t => ?_) F3
    ⟨lost, none, o3⟩ rfl) ?_ rfl mapped
  · rwa [mapped]
  · rw [mapped]
    exact covers t
  · show ((s.child np tf pt pgsize).image np).pagetable = some pt
    rw [self]

/-- `userinit` makes the first process.  It does not look at what `mappages` returns, so that the
page of the process may be lost. -/
theorem Inv.wp_userinit (I : Inv k boot tight lone s) (initcode : List UInt8) (err : ∀ e, E e) :
    wp (userinit k initcode) E (fun _ s' => Inv k boot tight lone s' ∨
      ∃ x r, (s'.image s'.table.initproc).pagetable = some r ∧ mapOf s'.mem.word r 0 = none ∧
        Inv k (x ::ₘ boot) False lone s') s := by
  obtain ⟨lost, none, o⟩ := I.own
  refine .seq (wp_allocproc o (fun q unused => ?_) (err _) (fun _ _ _ _ _ => err _)
    fun np tf pt m1 unused o1 out top low kept => ?_)
  · have blank := (I.placed q).blank unused
    exact ⟨blank.pagetable, blank.trapframe⟩
  refine .modify (.get (.seq ?_))
  rw [pagetable_eq (r := pt) (by
    show ((s.begun np tf pt).image np).pagetable = _
    rw [State.begun, setImage_self])]
  -- the state as it would be had `initproc` been set first
  have I' : Inv k boot tight lone (s.setTable { s.table with initproc := np }) :=
    I.setTable (fun _ => .rfl) fun _ => .inl
  replace unused : ((s.setTable { s.table with initproc := np }).proc np).state = .unused := unused
  replace o1 : Own k (boot + lost)
    (((s.setTable { s.table with initproc := np }).begun np tf pt).setMem m1) := o1.setTable _
  replace out : pt ∉ (s.setTable { s.table with initproc := np }).roots := out
  show wp _ E _ (((s.setTable { s.table with initproc := np }).begun np tf pt).setMem m1)
  have first : (s.setTable { s.table with initproc := np }).table.initproc = np := rfl
  replace kept : Kept (allPages (s.setTable { s.table with initproc := np }).mem.word
    (s.setTable { s.table with initproc := np }).roots)
    (s.setTable { s.table with initproc := np }).mem m1 := kept
  generalize s.setTable { s.table with initproc := np } = s1 at *
  have bare := ((I'.placed np).blank unused).pagetable
  have roots : (s1.begun np tf pt).roots = insert pt s1.roots := begun_roots bare
  have here : pt ∈ (s1.begun np tf pt).roots := by
    rw [roots]
    exact mem_insert_self ..
  have all : ∀ {Y m2}, Kept (Y + allPages m1.word ((s1.begun np tf pt).roots.erase pt)) m1 m2 →
      Kept (allPages s1.mem.word s1.roots) s1.mem m2 := by
    intro Y m2 kept2
    have kept2 := kept2.mono (Multiset.le_add_left ..)
    rw [roots, Finset.erase_insert out] at kept2
    exact kept.allPages_trans kept2
  refine wp_onMem (wp_uvmfirst (o1.focus here) (low 0 (by decide)) ⟨err _, err _⟩
    (fun x m2 u2 kept2 => ?_) fun e m2 u2 kept2 => ?_)
  · have sp := Spaces.put o1 here kept2 (Y := x ::ₘ (boot + lost + (s1.begun np tf pt).trapframes +
      (s1.begun np tf pt).pipes)) (by rwa [cons_add])
    obtain ⟨o2, map2⟩ := sp
    have o3 : Own k (x ::ₘ boot + lost) ((s1.begun np tf pt).setMem m2) := by
      unfold Own
      rwa [cons_add, cons_add, cons_add]
    refine I'.loosen.wp_firstFinish unused out none o3 (all kept2) (by rwa [map2]) nofun
      fun s' I2 at_ init map => .inr ⟨x, pt, ?_, ?_, I2⟩
    · rwa [init, first]
    · rw [map, map2]
      exact low 0 (by decide)
  · obtain ⟨o2, map2⟩ := o1.put here kept2 u2
    replace map2 : mapOf m2.word pt = Function.update (mapOf m1.word pt) 0 (some e) := map2
    refine I'.wp_firstFinish unused out none o2 (all kept2) ?_ (fun _ v hv => ?_)
      fun s' I2 _ _ _ => .inl I2
    · rw [map2]
      refine ⟨?_, ?_⟩
      · rw [Function.update_of_ne (by decide)]
        exact top.trampoline
      · rw [Function.update_of_ne (by decide)]
        exact top.trapframe
    · rw [map2, show pageCount pgsize = 1 by decide]
      by_cases zero : v = 0
      · rw [zero, Function.update_self]
        exact iff_of_true nofun one_pos
      · rw [Function.update_of_ne zero, low v hv]
        exact iff_of_false (fun ne => ne rfl) (by omega)

end Boot

end Xv6.Proc
