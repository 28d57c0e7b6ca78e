import Xv6.Proc.Fork

/-! `exec` and `thread_create`, and what a step of the system keeps. -/

namespace Xv6.Proc

open Kernel Vm Wp Tally Transition Multiset Finset

variable {n : Nat} {k : Symbols} {s s' : State n} {p q np : Fin n} {X Y boot : Multiset Addr}
  {r tf pt x : Addr} {m : Mem} {E : Stop → Prop} {tight lone : Prop} {sz : UInt64}
  {S : Finset Addr}

section Exec

theorem roots_replace (old : (s.image p).pagetable = some r) (alone : s.Unshared p)
    (new : im.pagetable = some pt) (out : pt ∉ s.roots) :
    (s.setImage p im).roots = (insert pt s.roots).erase r := by
  have mid : (s.setImage p { im with pagetable := none }).roots = s.roots.erase r :=
    roots_erase old alone rfl
  have last : ((s.setImage p { im with pagetable := none }).setImage p im).roots =
      insert pt (s.setImage p { im with pagetable := none }).roots :=
    roots_insert (by rw [setImage_self]) new
  rw [setImage_setImage, mid] at last
  rw [last, erase_insert_of_ne]
  rintro rfl
  exact out (roots_mem old)

/-- The process `p` has the page table and the size that `exec` gives it. -/
abbrev State.renew (s : State n) (p : Fin n) (pt : Addr) (sz : UInt64) : State n :=
  s.setImage p { s.image p with pagetable := some pt, sz := sz }

/-- What `exec` keeps and what it changes. -/
structure Execed (k : Symbols) (s : State n) (p : Fin n) (r tf pt : Addr) (sz : UInt64) (m : Mem) :
    Prop where
  out : pt ∉ s.roots
  top : Top k (mapOf m.word pt) tf
  covers : (mapOf m.word pt).Covers (pageCount sz)
  small : sz ≤ trapframeVa
  kept : Kept (allPages s.mem.word (s.roots.erase r)) s.mem m

variable {Q : Option Nat → State n → Prop} {m2 : Mem} {sp entry : UInt64} {argc : Nat}
  {file : Option (List UInt8)}

theorem Own.wp_commit (o : Own k X s) (at_ : (s.image p).pagetable = some r)
    (frame : (s.image p).trapframe = some tf) (free : Freeable k E s p)
    (b : Built k m2 (X + s.trapframes + s.pipes + allPages s.mem.word s.roots) pt tf sz)
    (kept2 : Kept (allPages s.mem.word s.roots) s.mem m2)
    (ok : ∀ m, Own k X ((s.renew p pt sz).setMem m) → Execed k s p r tf pt sz m →
      Q (some argc) ((s.renew p pt sz).setMem m)) :
    wp (do
      setTrapframe p tfA1 sp
      let s ← get
      set (s.setImage p { s.image p with pagetable := some pt, sz := sz })
      setTrapframe p tfEpc entry
      setTrapframe p tfSp sp
      onMem (procFreepagetable k (s.pagetable p) (s.image p).sz)
      return some argc) E Q (s.setMem m2) := by
  obtain ⟨g, u, top, covers, small⟩ := b
  obtain ⟨out, sp2, map2⟩ := Spaces.add o kept2 u
  have held := held_trapframe X frame
  have mem := roots_mem at_
  -- the old address space stands beside the new one until the end
  refine .seq (Proc.wp_setTrapframe sp2 held frame fun m3 sp3 kept3 => ?_)
  refine .get (.seq (wp_set.mpr ?_))
  have frame' : ((s.renew p pt sz).image p).trapframe = some tf := by rw [setImage_self, frame]
  refine .seq (Proc.wp_setTrapframe sp3 held frame' fun m4 sp4 kept4 => ?_)
  refine .seq (Proc.wp_setTrapframe sp4 held frame' fun m5 sp5 kept5 => ?_)
  replace kept3 : Kept (allPages m2.word (insert pt s.roots)) m2 m3 := kept3
  have kept5 := (kept3.allPages_trans kept4).allPages_trans kept5
  have kept' : Kept (allPages s.mem.word s.roots) s.mem m5 :=
    kept2.allPages_trans (kept5.subset (subset_insert ..))
  obtain ⟨⟨tf', top'⟩, small', cov'⟩ := free.2 r at_
  have old : mapOf m5.word r = mapOf s.mem.word r := (kept'.space mem).mapOf_eq
  rw [← old] at top' cov'
  rw [pagetable_eq (s := (s.setMem m2).setMem m3) at_]
  refine .seq (wp_onMem (Vm.wp_procFreepagetable (sp5.focus (mem_insert_of_mem mem))
    top' small' cov' fun m6 holds kept6 => ?_))
  have sp6 := sp5.free (mem_insert_of_mem mem) kept6 holds
  have kept6 : Kept (allPages m5.word ((insert pt s.roots).erase r)) m5 m6 :=
    kept6.mono (Multiset.le_add_left ..)
  have ne : pt ≠ r := by
    rintro rfl
    exact out mem
  have map6 : mapOf m6.word pt = g := by
    rw [(kept6.space (mem_erase.mpr ⟨ne, mem_insert_self ..⟩)).mapOf_eq,
      (kept5.space (mem_insert_self ..)).mapOf_eq, map2]
  refine ok m6 ?_ ⟨out, by rwa [map6], by rwa [map6], small, ?_⟩
  · have frames : (s.renew p pt sz).trapframes = s.trapframes := trapframes_same rfl
    show Spaces k m6 (s.renew p pt sz).roots (X + (s.renew p pt sz).trapframes + s.pipes)
    rwa [roots_replace at_ free.1 rfl out, frames]
  · exact (kept'.subset (erase_subset ..)).allPages_trans
      (kept6.subset (erase_subset_erase _ (subset_insert ..)))

theorem Own.wp_exec (o : Own k X s)
    (at_ : (s.image p).pagetable = some r) (frame : (s.image p).trapframe = some tf)
    (free : Freeable k E s p) (err : E .loadseg)
    (fail : ∀ m, Own k X (s.setMem m) → Kept (allPages s.mem.word s.roots) s.mem m →
      Q none (s.setMem m))
    (ok : ∀ argc pt sz m, Own k X ((s.renew p pt sz).setMem m) → Execed k s p r tf pt sz m →
      Q (some argc) ((s.renew p pt sz).setMem m)) : wp (exec k p file argv) E Q s := by
  have stop : Q none s := fail s.mem o .refl
  cases file with
  | none => exact stop
  | some file =>
    refine wp_ite (fun _ => stop) fun _ => wp_ite (fun _ => stop) fun _ => ?_
    refine .get (.seq ?_)
    rw [trapframe_eq frame]
    refine wp_onMem (wp_procPagetable o.holds (fun m holds kept => ?_)
      fun pt f m1 u top low kept1 => ?_)
    · have kept : Kept (allPages s.mem.word s.roots) s.mem m := kept.mono (Multiset.le_add_left ..)
      exact fail m (Spaces.congr o kept holds) kept
    have b : Built k m1 _ pt tf 0 :=
      ⟨f, u, top, pageCount_zero ▸ Map.covers_zero low, by decide⟩
    refine .seq (wp_onMem ((b.wp_execImage err).mono (fun res m2 ⟨b2, kept2⟩ => ?_)
      fun _ => id))
    have kept2 := kept1.trans kept2
    rcases res with ⟨sz, - | sp⟩
    · obtain ⟨g, u2, top2, cov2, small2⟩ := b2
      refine .seq (wp_onMem (Vm.wp_procFreepagetable u2 top2 small2 (.inl cov2)
        fun m3 holds3 kept3 => ?_))
      have kept3 : Kept (allPages s.mem.word s.roots) s.mem m3 :=
        (kept2.trans kept3).mono (Multiset.le_add_left ..)
      exact fail m3 (Spaces.congr o kept3 holds3) kept3
    · exact o.wp_commit at_ frame free b2 (kept2.mono (Multiset.le_add_left ..))
        fun m => ok _ pt sz m

def argPages (argv : List (Addr × List UInt8)) : Multiset Addr := argv.map Prod.fst

theorem argPages_append (argv : List (Addr × List UInt8)) (a : Addr × List UInt8) :
    argPages (argv ++ [a]) = a.1 ::ₘ argPages argv := by
  rw [argPages, argPages, List.map_append, List.map_singleton, ← Multiset.coe_add,
    Multiset.coe_singleton, add_comm, Multiset.singleton_add]

theorem wp_fetchArgs (args : List Arg) : ∀ {m : Mem} {argv : List (Addr × List UInt8)},
    Spaces k m S (argPages argv + Y) → wp (fetchArgs args argv) E
      (fun res m' => Spaces k m' S (argPages res.2 + Y) ∧ Kept (allPages m.word S) m m') m := by
  induction args with
  | nil => exact fun sp => ⟨sp, .refl⟩
  | cons arg args ih =>
    intro m argv sp
    refine wp_ite (fun _ => ⟨sp, .refl⟩) fun _ => ?_
    cases arg with
    | badAddr => exact ⟨sp, .refl⟩
    | badStr =>
      refine .seq (sp.wp_kalloc ⟨sp, .refl⟩ fun x m1 sp1 kept1 => ⟨?_, ?_⟩)
      · rwa [argPages_append, cons_add]
      · exact kept1.mono (Multiset.le_add_left ..)
    | str arg =>
      refine .seq (sp.wp_kalloc ⟨sp, .refl⟩ fun x m1 sp1 kept1 => ?_)
      have kept1 : Kept (allPages m.word S) m m1 := kept1.mono (Multiset.le_add_left ..)
      refine (ih ?_).mono (fun res m2 h => ⟨h.1, kept1.allPages_trans h.2⟩) fun _ => id
      rwa [argPages_append, Multiset.cons_add]

theorem wp_freeArgs (argv : List (Addr × List UInt8)) : ∀ {m : Mem},
    Spaces k m S (argPages argv + Y) → wp (argv.forM fun a => kfree k a.1) E
      (fun _ m' => Spaces k m' S Y ∧ Kept (allPages m.word S) m m') m := by
  induction argv with
  | nil =>
    intro m sp
    rw [show argPages [] = 0 from rfl, zero_add] at sp
    exact ⟨sp, .refl⟩
  | cons a argv ih =>
    intro m sp
    rw [show argPages (a :: argv) = a.1 ::ₘ argPages argv from rfl, cons_add] at sp
    refine wp_forM_cons.mpr (sp.wp_kfree fun m1 sp1 kept1 => ?_)
    have kept1 : Kept (allPages m.word S) m m1 := kept1.mono (Multiset.le_add_left ..)
    exact (ih sp1).mono (fun _ m2 h => ⟨h.1, kept1.allPages_trans h.2⟩) fun _ => id

theorem Own.wp_freeArgs {Q : Unit → State n → Prop}
    (o : Own k (argPages argv + X) s)
    (next : ∀ m, Own k X (s.setMem m) → Kept (allPages s.mem.word s.roots) s.mem m →
      Q () (s.setMem m)) : wp (onMem (argv.forM fun a => kfree k a.1)) E Q s := by
  have sp : Spaces k s.mem s.roots (argPages argv + (X + s.trapframes + s.pipes)) := by
    rwa [← add_assoc, ← add_assoc]
  exact wp_onMem ((Proc.wp_freeArgs argv sp).mono (fun _ m h => next m h.1 h.2) fun _ => id)

theorem Own.wp_sysExec (o : Own k X s) (at_ : (s.image p).pagetable = some r)
    (frame : (s.image p).trapframe = some tf) (free : Freeable k E s p) (err : E .loadseg)
    (fail : ∀ m, Own k X (s.setMem m) → Kept (allPages s.mem.word s.roots) s.mem m →
      Q none (s.setMem m))
    (ok : ∀ argc pt sz m, Own k X ((s.renew p pt sz).setMem m) → Execed k s p r tf pt sz m →
      Q (some argc) ((s.renew p pt sz).setMem m)) : wp (sysExec k p file args) E Q s := by
  have sp : Spaces k s.mem s.roots (argPages [] + (X + s.trapframes + s.pipes)) := by
    rwa [show argPages [] = 0 from rfl, zero_add]
  refine .seq (wp_onMem ((wp_fetchArgs args sp).mono
    (fun ⟨good, argv⟩ m1 ⟨sp1, kept1⟩ => ?_) fun _ => id))
  have o1 : Own k (argPages argv + X) (s.setMem m1) := by
    unfold Own
    rwa [add_assoc, add_assoc, ← add_assoc X]
  have free1 : Freeable k E (s.setMem m1) p := by
    refine ⟨free.1, fun r at_ => ?_⟩
    show (∃ tf, Top k (mapOf m1.word r) tf) ∧ _ ∧ ((mapOf m1.word r).Covers _ ∨ _)
    rw [(kept1.space (roots_mem at_)).mapOf_eq]
    exact free.2 r at_
  have undo : ∀ {m2}, Own k (argPages argv + X) (s.setMem m2) →
      Kept (allPages s.mem.word s.roots) s.mem m2 → wp (do
        onMem (argv.forM fun a => kfree k a.1)
        return none) E Q (s.setMem m2) := fun o2 kept2 =>
    .seq (o2.wp_freeArgs fun m3 o3 kept3 => fail m3 o3 (kept2.allPages_trans kept3))
  refine wp_ite (fun _ => .seq ?_) fun _ => undo o1 kept1
  refine o1.wp_exec at_ frame free1 err (fun m2 o2 kept2 => ?_) fun argc pt sz m2 o2 ex => ?_
  · exact undo o2 (kept1.allPages_trans kept2)
  · refine .seq (o2.wp_freeArgs fun m3 o3 kept3 => ok argc pt sz m3 o3 ?_)
    replace kept3 : Kept (allPages m2.word (s.renew p pt sz).roots) m2 m3 := kept3
    have out : pt ∉ s.roots := ex.out
    have ne : pt ≠ r := by
      rintro rfl
      exact out (roots_mem at_)
    rw [roots_replace at_ free.1 rfl out] at kept3
    have map : mapOf m3.word pt = mapOf m2.word pt :=
      (kept3.space (mem_erase.mpr ⟨ne, mem_insert_self ..⟩)).mapOf_eq
    refine ⟨out, by rw [map]; exact ex.top, by rw [map]; exact ex.covers, ex.small, ?_⟩
    exact ((kept1.subset (erase_subset ..)).allPages_trans ex.kept).allPages_trans
      (kept3.subset (erase_subset_erase _ (subset_insert ..)))

theorem Inv.wp_sysExec (I : Inv k boot tight lone s) (at_ : (s.image p).pagetable = some r)
    (alive : (s.proc p).state.alive = true) (unshared : s.Unshared p) (err : tight ∨ ∀ e, E e)
    (loadseg : E .loadseg) :
    wp (sysExec k p file args) E (fun _ s' => Inv k boot tight lone s') s := by
  obtain ⟨lost, none, o⟩ := I.own
  have seat := (I.placed p).seat r at_
  obtain ⟨-, tf, -, frame⟩ := (I.placed p).busy (by
    intro unused
    rw [unused] at alive
    cases alive)
  obtain ⟨-, tf', -, -, top⟩ := seat.top
  have free : Freeable k E s p := by
    refine ⟨unshared, fun r' at' => ?_⟩
    obtain rfl : r = r' := Option.some.inj (at_.symm.trans at')
    exact ⟨⟨tf', top⟩, seat.small, err.imp_left seat.covers⟩
  refine o.wp_sysExec at_ frame free loadseg (fun m o' kept => ?_) fun argc pt sz m o' ex => ?_
  · exact I.setMem alive (fun r hr => (kept.space hr).mapOf_eq) ⟨lost, none, o'⟩
  have self : (s.renew p pt sz).image p = { s.image p with pagetable := some pt, sz := sz } :=
    setImage_self
  have maps : ∀ q r', q ≠ p → (s.image q).pagetable = some r' →
      mapOf m.word r' = mapOf s.mem.word r' := by
    intro q r' ne at'
    refine (ex.kept.space (mem_erase.mpr ⟨?_, roots_mem at'⟩)).mapOf_eq
    rintro rfl
    exact unshared q r' ne at_ at'
  refine I.update (p := p) (fun q => setImage_of_ne) (fun q _ => .refl _)
    (fun q r' ne at' v _ => congrFun (maps q r' ne at') v) (fun _ => maps) (.inr unshared)
    (.own alive ((congrArg Image.pagetable self).trans rfl)
      ((congrArg Image.trapframe self).trans frame) (fun q at' => ?_) ?_ ex.top fun _ => ?_)
    (I.files.of_same rfl rfl ?_) ⟨lost, none, o'⟩
  · by_contra ne
    replace at' : ((s.setImage p _).image q).pagetable = some pt := at'
    rw [setImage_of_ne ne] at at'
    exact ex.out (roots_mem at')
  · show ((s.setImage p _).image p).sz ≤ _
    rw [self]
    exact ex.small
  · show (mapOf m.word pt).Covers (pageCount ((s.setImage p _).image p).sz)
    rw [self]
    exact ex.covers
  · funext ⟨q, fd⟩
    show ((s.setImage p _).image q).ofile fd = _
    by_cases hq : q = p
    · rw [hq, self]
      rfl
    · rw [setImage_of_ne hq]
      rfl

end Exec

section Threads

variable {s1 : State n} {im : Image} {lost : Multiset Addr}

/-- Of the processes only `np` changes, which had no page table, and it keeps its descriptors. -/
structure Only (np : Fin n) (s s' : State n) : Prop where
  image : ∀ q, q ≠ np → s'.image q = s.image q
  ofile : (s'.image np).ofile = (s.image np).ofile
  proc : ∀ q, q ≠ np → s'.proc q = s.proc q
  ftable : s'.ftable = s.ftable
  pipe : s'.pipe = s.pipe
  bare : (s.image np).pagetable = none
  kept : Kept (allPages s.mem.word s.roots) s.mem s'.mem

namespace Only

section

variable (h : Only np s s1)

include h

theorem roots : s.roots ⊆ s1.roots := by
  intro r hr
  obtain ⟨q, at_⟩ := mem_roots.mp hr
  have ne : q ≠ np := by
    rintro rfl
    rw [h.bare] at at_
    cases at_
  exact roots_mem (p := q) (by rw [h.image q ne, at_])

theorem setTable (same : ∀ q, q ≠ np → t.proc q = s1.proc q) : Only np s (s1.setTable t) :=
  ⟨h.image, h.ofile, fun q ne => (same q ne).trans (h.proc q ne), h.ftable, h.pipe, h.bare, h.kept⟩

theorem setImage (im : Image) (ofile : im.ofile = (s1.image np).ofile) :
    Only np s (s1.setImage np im) :=
  ⟨fun q ne => (setImage_of_ne ne).trans (h.image q ne),
    (congrArg Image.ofile setImage_self).trans (ofile.trans h.ofile), h.proc, h.ftable, h.pipe,
    h.bare, h.kept⟩

theorem setMem (kept : Kept (allPages s1.mem.word s1.roots) s1.mem m) :
    Only np s (s1.setMem m) :=
  ⟨h.image, h.ofile, h.proc, h.ftable, h.pipe, h.bare,
    h.kept.allPages_trans (kept.subset h.roots)⟩

theorem files (F : Files 0 s) : Files 0 s1 := by
  refine F.of_same h.ftable h.pipe ?_
  funext ⟨q, fd⟩
  show (s1.image q).ofile fd = (s.image q).ofile fd
  by_cases hq : q = np
  · rw [hq, h.ofile]
  · rw [h.image q hq]

theorem inv (I : Inv k boot tight lone s) (placed : Placed k tight lone s1 np)
    (own : ∃ lost, (lone → lost = 0) ∧ Own k (boot + lost) s1) : Inv k boot tight lone s1 := by
  have maps : ∀ q r, q ≠ np → (s.image q).pagetable = some r →
      mapOf s1.mem.word r = mapOf s.mem.word r := fun q r _ at_ =>
    (h.kept.space (roots_mem at_)).mapOf_eq
  refine I.update (p := np) h.image (fun q ne => .inl ?_)
    (fun q r ne at_ v _ => congrFun (maps q r ne at_) v) (fun _ => maps)
    (.inr fun q r _ at_ => (nomatch h.bare.symm.trans at_)) placed (h.files I.files) own
  rw [h.proc q ne]

end

end Only

theorem Own.share (o : Own k X s) (none : (s.image np).pagetable = none) (mem : r ∈ s.roots)
    (new : im.pagetable = some r) (trapframe : im.trapframe = (s.image np).trapframe) :
    Own k X (s.setImage np im) := by
  unfold Own
  rwa [roots_insert none new, insert_eq_self.mpr mem, trapframes_same trapframe]

theorem Own.lose (o : Own k (x ::ₘ (X + Y)) s) : Own k (X + (x ::ₘ Y)) s := by
  rwa [add_cons]

/-- A thread of `p`, which shares its page table. -/
theorem Inv.thread (I : Inv k boot tight lone s) (shared : ¬lone)
    (at_ : (s.image p).pagetable = some r) (only : Only np s s')
    (ready : (s'.proc np).state.alive = true) (pagetable : (s'.image np).pagetable = some r)
    (trapframe : (s'.image np).trapframe = some tf) (size : (s'.image np).sz = (s.image p).sz)
    (own : Own k (boot + lost) s') : Inv k boot tight lone s' := by
  have map : mapOf s'.mem.word r = mapOf s.mem.word r :=
    (only.kept.space (roots_mem at_)).mapOf_eq
  have seat := (I.placed p).seat r at_
  refine only.inv I ⟨fun h => ?_, fun _ => ⟨r, tf, pagetable, trapframe⟩, fun h => ?_,
    fun r' at' => ?_⟩ ⟨lost, fun l => absurd l shared, own⟩
  · rw [h] at ready
    cases ready
  · rcases h with h | h <;> rw [h] at ready <;> cases ready
  · obtain rfl : r = r' := Option.some.inj (pagetable.symm.trans at')
    obtain ⟨o, tf', hr, htf, top⟩ := seat.top
    have ho : o ≠ np := by
      rintro rfl
      rw [only.bare] at hr
      cases hr
    refine ⟨by rw [size]; exact seat.small, ⟨o, tf', by rw [only.image o ho, hr],
      by rw [only.image o ho, htf], by rwa [map]⟩, fun t => ?_, fun t q at_q => ?_,
      fun l => absurd l shared⟩
    · rw [size, map]
      exact seat.covers t
    · by_cases hq : q = np
      · rw [hq]
      · rw [only.image q hq] at at_q ⊢
        rw [size]
        exact seat.agree t q at_q

theorem Inv.wp_undoThread {Q : Option (Fin n) → State n → Prop} (I : Inv k boot tight lone s)
    (shared : ¬lone) (unused : (s.proc np).state = .unused) (only : Only np s s1)
    (bare : (s1.image np).pagetable = none) (o : Own k (boot + lost) s1)
    (fail : ∀ s', Inv k boot tight lone s' → Q none s') :
    wp (do
      freeproc k np
      return none) E Q s1 := by
  refine .seq (Proc.wp_freeproc o (freeable_none bare) fun m o' kept => fail _ ?_)
  have self : (s1.freed np).image np =
      { s1.image np with trapframe := none, pagetable := none, sz := 0 } := setImage_self
  have state : (((s1.freed np).setMem m).proc np).state = .unused := by
    show ((s1.table.freeproc np).proc np).state = .unused
    rw [Table.freeproc_proc, if_pos rfl]
  have gone : Only np s (s1.freed np) := by
    have image := only.setImage { s1.image np with trapframe := none, pagetable := none, sz := 0 } rfl
    refine image.setTable fun q ne => ?_
    rw [Table.freeproc_proc, if_neg ne]
    rfl
  -- the roots of `s1` are those of the state without the process
  have only' : Only np s ((s1.freed np).setMem m) := gone.setMem kept
  refine only'.inv I ⟨fun _ => ?_, fun busy => absurd state busy, fun _ fd => ?_, fun r at_ => ?_⟩
    ⟨lost, fun l => absurd l shared, o'⟩
  · show ((s1.freed np).image np).Blank
    rw [self]
    exact ⟨rfl, rfl, rfl⟩
  · rw [only'.ofile]
    exact (I.placed np).closed (.inl unused) fd
  · replace at_ : ((s1.freed np).image np).pagetable = some r := at_
    rw [self] at at_
    cases at_

section

variable (I : Inv k boot tight lone s) (shared : ¬lone) (at_ : (s.image p).pagetable = some r)
  (alive : (s.proc p).state.alive = true)

include I shared at_ alive

/-- The part of `allocthread` after the allocation of a stack, which stays allocated whatever
happens to the thread. -/
theorem Inv.wp_threadFrame {Q : Option (Fin n) → State n → Prop}
    (unused : (s.proc np).state = .unused) (only : Only np s s1)
    (bare : (s1.image np).pagetable = none) (noFrame : (s1.image np).trapframe = none)
    (o : Own k (boot + lost) s1) (fail : ∀ s', Inv k boot tight lone s' → Q none s')
    (ok : ∀ tf s', Only np s s' → (s'.image np).pagetable = some r →
      (s'.image np).trapframe = some tf → (s'.image np).sz = (s.image p).sz →
      Own k (boot + lost) s' → Q (some np) s') :
    wp (do
      let tf ← onMem kalloc
      modify fun s => s.setImage np { s.image np with trapframe := tf }
      match tf with
      | none =>
        freeproc k np
        return none
      | some _ =>
        modify fun s =>
          (s.setImage np
            { s.image np with pagetable := (s.image p).pagetable, sz := (s.image p).sz }).setTable
            (s.table.set np
              { s.proc np with threadParent := some p, killed := false, xstate := 0 })
        return some np) E Q s1 := by
  have ne : p ≠ np := by
    rintro rfl
    rw [unused] at alive
    cases alive
  refine .seq (o.wp_kalloc ?_ fun tf m o1 kept => ?_)
  · refine .modify ?_
    refine I.wp_undoThread shared unused (only.setImage _ rfl) ?_ (o.setImage rfl noFrame.symm) fail
    rwa [setImage_self]
  have only1 := only.setMem kept
  replace bare : ((s1.setMem m).image np).pagetable = none := bare
  replace noFrame : ((s1.setMem m).image np).trapframe = none := noFrame
  generalize s1.setMem m = s2 at *
  refine .modify (.modify ?_)
  have o2 : Own k (boot + lost) (s2.setImage np { s2.image np with trapframe := some tf }) :=
    o1.giveTrapframe rfl noFrame rfl
  have only2 : Only np s (s2.setImage np { s2.image np with trapframe := some tf }) :=
    only1.setImage _ rfl
  have self : (s2.setImage np { s2.image np with trapframe := some tf }).image np =
    { s2.image np with trapframe := some tf } := setImage_self
  generalize s2.setImage np { s2.image np with trapframe := some tf } = s3 at *
  have parent : (s3.image p).pagetable = some r := by rw [only2.image p ne, at_]
  have self' : (s3.setImage np { s3.image np with
      pagetable := (s3.image p).pagetable, sz := (s3.image p).sz }).image np =
      { s3.image np with pagetable := (s3.image p).pagetable, sz := (s3.image p).sz } :=
    setImage_self
  have o3 : Own k (boot + lost) (s3.setImage np { s3.image np with
      pagetable := (s3.image p).pagetable, sz := (s3.image p).sz }) :=
    o2.share (by rwa [self]) (roots_mem parent) parent rfl
  have only3 : Only np s (s3.setImage np { s3.image np with
      pagetable := (s3.image p).pagetable, sz := (s3.image p).sz }) := only2.setImage _ rfl
  refine ok tf _ (only3.setTable fun q hq => Table.set_of_ne hq) ?_ ?_ ?_ (o3.setTable _)
  · exact (congrArg Image.pagetable self').trans parent
  · exact (congrArg Image.trapframe self').trans (by rw [self])
  · exact (congrArg Image.sz self').trans (by rw [only2.image p ne])

theorem Inv.wp_allocthread {Q : Option (Fin n) → State n → Prop}
    (fail : ∀ s', Inv k boot tight lone s' → Q none s')
    (ok : ∀ np tf lost s', Only np s s' → (s'.image np).pagetable = some r →
      (s'.image np).trapframe = some tf → (s'.image np).sz = (s.image p).sz →
      Own k (boot + lost) s' → Q (some np) s') :
    wp (allocthread k p) E Q s := by
  obtain ⟨lost, -, o⟩ := I.own
  refine .get ?_
  cases found : s.table.findUnused with
  | none => exact fail s I
  | some np =>
    have unused : (s.proc np).state = .unused := Table.findUnused_some found
    have blank := (I.placed np).blank unused
    have start : Only np s s :=
      ⟨fun _ _ => rfl, rfl, fun _ _ => rfl, rfl, rfl, blank.pagetable, .refl⟩
    have only : Only np s (s.setTable (s.table.takeThread p np)) := by
      refine start.setTable fun q hq => ?_
      rw [Table.takeThread_proc, if_neg hq]
      rfl
    refine .modify ?_
    have o := o.setTable (s.table.takeThread p np)
    replace blank : ((s.setTable (s.table.takeThread p np)).image np).Blank := blank
    generalize s.setTable (s.table.takeThread p np) = s1 at *
    refine .seq (o.wp_kalloc ?_ fun kst m o1 kept => ?_)
    · refine .modify ?_
      refine I.wp_undoThread shared unused (only.setImage _ rfl) ?_ (o.setImage rfl rfl) fail
      rw [setImage_self]
      exact blank.pagetable
    have only1 := only.setMem kept
    replace blank : ((s1.setMem m).image np).Blank := blank
    generalize s1.setMem m = s2 at *
    refine .modify ?_
    refine I.wp_threadFrame shared at_ alive unused (only1.setImage _ rfl) ?_ ?_
      (Own.lose (o1.setImage rfl rfl)) fail fun tf s' => ok np tf (kst ::ₘ lost) s'
    · rw [setImage_self]
      exact blank.pagetable
    · rw [setImage_self]
      exact blank.trapframe

theorem Inv.wp_threadCreate :
    wp (threadCreate k p fn arg stack) E (fun _ s' => Inv k boot tight lone s') s := by
  refine wp_ite (fun _ => I) fun _ => .seq ?_
  refine I.wp_allocthread shared at_ alive (fun s' I' => I')
    fun np tf lost s1 only pagetable frame size o => ?_
  refine .get (wp_ite (fun none => ?_) fun _ => ?_)
  · rw [frame] at none
    cases none
  refine .seq (o.wp_copyTrapframe frame fun m1 o1 kept1 => ?_)
  have only1 := only.setMem kept1
  refine .seq (o1.wp_setTrapframe frame fun m2 o2 kept2 => ?_)
  have only2 := only1.setMem kept2
  refine .seq (o2.wp_setTrapframe frame fun m3 o3 kept3 => ?_)
  have only3 := only2.setMem kept3
  refine .seq (o3.wp_setTrapframe frame fun m4 o4 kept4 => ?_)
  have only4 := only3.setMem kept4
  refine .modify (I.thread shared at_
    (only4.setTable fun q hq => Table.set_of_ne hq) ?_ pagetable frame size (o4.setTable _))
  exact congrArg (fun v : Kernel.Proc n => v.state.alive) Table.set_self

end

end Threads

section Step

/-- A step that frees a page table which another process has is not taken. -/
def Safe (s : State n) : Label n → Prop
  | .exec p _ _ => s.Unshared p
  | .wait p _ => ∀ pp, s.table.findZombie p = some pp → s.Unshared pp
  | .threadJoin p _ => ∀ pp, s.table.findThread p = some pp → s.Unshared pp
  | _ => True

/-- Nor is one that resizes it. -/
def Fixed (s : State n) : Label n → Prop
  | .sbrk p i => i = 0 ∨ s.Unshared p
  | _ => True

/-- A step that shares no page table. -/
def Label.isThreadCreate : Label n → Bool
  | .threadCreate .. => true
  | _ => false

theorem Inv.unshared (I : Inv k boot tight lone s) (l : lone) (p : Fin n) : s.Unshared p :=
  fun q r ne at_ at' => ne (((I.placed p).seat r at_).alone l q at')

theorem before_alive (l : Label n) : l.before.alive = true := by cases l <;> rfl

variable {l : Label n}

/-- A step keeps the invariant, and in a tight run ends in no panic but those of a bad program file
and of an exit of the first process. -/
theorem Inv.wp_step (I : Inv k boot tight lone s) (before : (s.proc l.proc).state = l.before)
    (safe : Safe s l) (fixed : tight → Fixed s l) (single : lone → l.isThreadCreate = false) :
    wp (l.run k) (fun e => tight → e = .loadseg ∨ e = .initExiting)
      (fun _ s' => Inv k boot tight lone s') s := by
  have err : tight ∨ ∀ e : Stop, tight → e = .loadseg ∨ e = .initExiting := by
    by_cases t : tight
    · exact .inl t
    · exact .inr fun _ h => absurd h t
  have alive : (s.proc l.proc).state.alive = true := by
    rw [before]
    exact before_alive l
  obtain ⟨r, tf, at_, -⟩ := (I.placed l.proc).busy (by
    intro unused
    rw [unused] at alive
    cases alive)
  cases l with
  | pick | yield => exact I.setProc alive rfl
  | trap p regs => exact I.wp_uservec at_ alive fun _ _ _ _ _ _ I' => I'
  | store p va b => exact (I.wp_userStore at_ alive).mono (fun _ _ h => h.1) fun _ => id
  | fork p => exact wp_discard.mpr (I.wp_fork at_ alive err (fun _ I' _ => I') fun _ _ _ I' _ => I')
  | exec p file args => exact wp_discard.mpr (I.wp_sysExec at_ alive safe err fun _ => .inl rfl)
  | sbrk p i =>
    exact wp_discard.mpr ((I.wp_growproc at_ alive fixed err).mono (fun _ _ h => h.1) fun _ => id)
  | pipe p fdarray => exact wp_discard.mpr (I.wp_sysPipe at_ alive)
  | close p fd => exact wp_discard.mpr (I.wp_sysClose alive)
  | exit p status => exact I.wp_exit alive fun _ => .inr rfl
  | wait p addr => exact wp_discard.mpr (I.wp_wait at_ alive safe err)
  | threadCreate p fn arg stack =>
    have shared : ¬lone := fun l => by cases single l
    exact wp_discard.mpr (I.wp_threadCreate shared at_ alive)
  | threadJoin p retval => exact wp_discard.mpr (I.wp_threadJoin at_ alive safe err)

theorem step_before (h : step k l s = some s') : (s.proc l.proc).state = l.before := by
  unfold Proc.step at h
  split at h
  next before => exact before
  next => cases h

theorem of_step (h : step k l s = some s') (spec : wp (l.run k) E Q s) : Q () s' := by
  unfold Proc.step at h
  rw [if_pos (step_before h)] at h
  unfold wp at spec
  split at h
  next run =>
    cases h
    rwa [run] at spec
  next => cases h

theorem Inv.step (I : Inv k boot tight lone s) (h : step k l s = some s') (safe : Safe s l)
    (fixed : tight → Fixed s l) (single : lone → l.isThreadCreate = false) :
    Inv k boot tight lone s' :=
  of_step h (I.wp_step (step_before h) safe fixed single)

end Step

section Start

variable [NeZero n] {initcode : List UInt8}

theorem Inv.of_userinit (holds : Holds k m boot)
    (init : userinit k initcode (Proc.start m : State n) = .ok ((), s)) :
    ∃ boot', (boot' = boot ∨ ∃ x, boot' = x ::ₘ boot) ∧ Inv k boot' False lone s := by
  have I : Inv k boot False lone (Proc.start m : State n) := .start holds
  have spec := I.wp_userinit (E := fun _ => True) initcode fun _ => trivial
  rw [wp_ok init] at spec
  rcases spec with I' | ⟨x, -, -, -, I'⟩
  · exact ⟨boot, .inl rfl, I'⟩
  · exact ⟨x ::ₘ boot, .inr ⟨x, rfl⟩, I'⟩

/-- The page of the first process is mapped. -/
def FirstMapped (s : State n) : Prop := mapOf s.mem.word (s.pagetable s.table.initproc) 0 ≠ none

instance : Decidable (FirstMapped s) := inferInstanceAs (Decidable (¬_))

theorem Inv.of_userinit_mapped (holds : Holds k m boot)
    (init : userinit k initcode (Proc.start m : State n) = .ok ((), s)) (mapped : FirstMapped s) :
    Inv k boot True lone s := by
  have I : Inv k boot True lone (Proc.start m : State n) := .start holds
  have spec := I.wp_userinit (E := fun _ => True) initcode fun _ => trivial
  rw [wp_ok init] at spec
  rcases spec with I' | ⟨x, r, at_, free, -⟩
  · exact I'
  · rw [FirstMapped, pagetable_eq at_] at mapped
    exact absurd free mapped

end Start

theorem sixteenPages_aligned : UInt64.toNat 0x80007000 % 4096 = 0 := by decide

theorem sixteenPages_kernbase : kernbase ≤ 0x80007000 := by decide

/-- A kernel that leaves sixteen pages to the allocator. -/
def sixteenPages : Symbols where
  end_ := 0x87FF0000
  trampoline := 0x80007000
  aligned := sixteenPages_aligned
  kernbase_le := sixteenPages_kernbase
  trampoline_lt := by decide
  end_le := by decide

def sixteenPages.mem : Mem := ⟨fun _ _ => 0, sixteenPages.pages, false⟩

/-- The state in which a call leaves the system. -/
def after {σ ε : Type} (f : StateT σ (Except ε) Unit) (s : σ) : σ :=
  match f s with
  | .ok (_, s') => s'
  | .error _ => s

theorem after_eq {σ ε : Type} {f : StateT σ (Except ε) Unit} {s : σ} (ok : (f s).isOk = true) :
    f s = .ok ((), after f s) := by
  rw [after]
  cases eq : f s with
  | ok r => rfl
  | error e =>
    rw [eq] at ok
    cases ok

/-- Its state when the first process is there. -/
def sixteenPages.first : State 2 := after (userinit sixteenPages [0x13]) (start sixteenPages.mem)

theorem sixteenPages.holds : Holds sixteenPages sixteenPages.mem 0 := ⟨add_zero _, rfl⟩

theorem sixteenPages.userinit_eq :
    userinit sixteenPages [0x13] (start sixteenPages.mem) = .ok ((), sixteenPages.first) :=
  after_eq (by decide +kernel)

end Xv6.Proc
