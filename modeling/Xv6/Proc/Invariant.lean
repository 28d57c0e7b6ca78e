import Xv6.Proc.Files

/-! What holds of every process between the calls. Two stronger forms are kept by runs that never
share a page table, and by runs that never resize a shared one. -/

namespace Xv6.Proc

open Kernel Vm Wp Tally Table

variable {s : State n} {boot : Multiset Addr} {tight : Prop} {Q : Unit → State n → Prop}

/-- The two states are the same, or both are those of a process that runs, sleeps or waits for a
processor. -/
def Alike (a b : ProcState) : Prop := b = a ∨ a.alive = true ∧ b.alive = true

namespace Alike

variable {a b : ProcState}

theorem refl (a : ProcState) : Alike a a := .inl rfl

theorem eq_of_dead (h : Alike a b) (dead : b.alive = false) : a = b := by
  rcases h with rfl | ⟨-, alive⟩
  · rfl
  · rw [dead] at alive
    cases alive

theorem ne_unused (h : Alike a b) (ne : b ≠ .unused) : a ≠ .unused := by
  rintro rfl
  rcases h with rfl | ⟨alive, -⟩
  · exact ne rfl
  · cases alive

end Alike

/-- An entry of the process table that has no process. -/
structure Image.Blank (im : Image) : Prop where
  pagetable : im.pagetable = none
  trapframe : im.trapframe = none
  sz : im.sz = 0

/-- The process `p` and its page table `r`, which maps the trapframe of one that has it. Where
`tight` holds its user pages are those of the size, the same for all that have it; where `lone`
holds no other process has it. -/
structure Seat (k : Symbols) (tight lone : Prop) (s : State n) (p : Fin n) (r : Addr) : Prop where
  small : (s.image p).sz ≤ trapframeVa
  top : ∃ q tf, (s.image q).pagetable = some r ∧ (s.image q).trapframe = some tf ∧
    Top k (mapOf s.mem.word r) tf
  covers : tight → (mapOf s.mem.word r).Covers (pageCount (s.image p).sz)
  agree : tight → ∀ q, (s.image q).pagetable = some r → (s.image q).sz = (s.image p).sz
  alone : lone → ∀ q, (s.image q).pagetable = some r → q = p

structure Placed (k : Symbols) (tight lone : Prop) (s : State n) (p : Fin n) : Prop where
  blank : (s.proc p).state = .unused → (s.image p).Blank
  busy : (s.proc p).state ≠ .unused →
    ∃ r tf, (s.image p).pagetable = some r ∧ (s.image p).trapframe = some tf
  closed : (s.proc p).state = .unused ∨ (s.proc p).state = .zombie →
    ∀ fd, (s.image p).ofile fd = none
  seat : ∀ r, (s.image p).pagetable = some r → Seat k tight lone s p r

/-- The kernel between two calls.  The pages `lost` are those that no call gives back. -/
structure Inv (k : Symbols) (boot : Multiset Addr) (tight lone : Prop) (s : State n) : Prop where
  placed : ∀ p, Placed k tight lone s p
  files : Files 0 s
  own : ∃ lost, (lone → lost = 0) ∧ Own k (boot + lost) s

theorem Placed.own (alive : (s.proc p).state.alive = true) (pagetable : (s.image p).pagetable = some r)
    (trapframe : (s.image p).trapframe = some tf)
    (only : ∀ q, (s.image q).pagetable = some r → q = p) (small : (s.image p).sz ≤ trapframeVa)
    (top : Top k (mapOf s.mem.word r) tf)
    (covers : tight → (mapOf s.mem.word r).Covers (pageCount (s.image p).sz)) :
    Placed k tight lone s p := by
  refine ⟨fun h => ?_, fun _ => ⟨r, tf, pagetable, trapframe⟩, fun h => ?_, fun r' at_ => ?_⟩
  · rw [h] at alive
    cases alive
  · rcases h with h | h <;> rw [h] at alive <;> cases alive
  · obtain rfl : r = r' := Option.some.inj (pagetable.symm.trans at_)
    refine ⟨small, ⟨p, tf, pagetable, trapframe, top⟩, covers, fun _ q at_ => ?_,
      fun _ q at_ => only q at_⟩
    rw [only q at_]

section Changes

/-- The processes other than `p` and their page tables stay as they are; sharers of that of `p` may
see its user pages change, unless the run is tight. -/
theorem Inv.update (I : Inv k before tight lone s)
    (image : ∀ q, q ≠ p → s'.image q = s.image q)
    (state : ∀ q, q ≠ p → Alike (s.proc q).state (s'.proc q).state)
    (high : ∀ q r, q ≠ p → (s.image q).pagetable = some r →
      ∀ v, trapframePn ≤ v → mapOf s'.mem.word r v = mapOf s.mem.word r v)
    (low : tight → ∀ q r, q ≠ p → (s.image q).pagetable = some r →
      mapOf s'.mem.word r = mapOf s.mem.word r)
    (stay : (s'.image p).pagetable = (s.image p).pagetable ∧
      (s'.image p).trapframe = (s.image p).trapframe ∨ s.Unshared p)
    (placed : Placed k tight lone s' p) (files : Files 0 s')
    (own : ∃ lost, (lone → lost = 0) ∧ Own k (boot + lost) s') : Inv k boot tight lone s' := by
  refine ⟨fun q => ?_, files, own⟩
  by_cases hq : q = p
  · rwa [hq]
  have old := I.placed q
  have like := state q hq
  refine ⟨fun unused => ?_, fun busy => ?_, fun closed => ?_, fun r at_ => ?_⟩
  · rw [image q hq]
    exact old.blank ((like.eq_of_dead (by rw [unused]; rfl)).trans unused)
  · rw [image q hq]
    exact old.busy (like.ne_unused busy)
  · rw [image q hq]
    refine old.closed (closed.imp (fun h => ?_) fun h => ?_)
    · exact (like.eq_of_dead (by rw [h]; rfl)).trans h
    · exact (like.eq_of_dead (by rw [h]; rfl)).trans h
  · rw [image q hq] at at_
    have seat := old.seat r at_
    obtain ⟨o, tf, hr, htf, top⟩ := seat.top
    refine ⟨?_, ⟨o, tf, ?_, ?_, ?_, ?_⟩, fun t => ?_, fun t q' at' => ?_, fun l q' at' => ?_⟩
    · rw [image q hq]
      exact seat.small
    · -- the owner may be `p`, which then has kept its page table, for `q` has it too
      by_cases ho : o = p
      · rw [ho] at hr htf ⊢
        rcases stay with ⟨pagetable, -⟩ | unshared
        · rw [pagetable, hr]
        · exact absurd at_ (unshared q r hq hr)
      · rw [image o ho, hr]
    · by_cases ho : o = p
      · rw [ho] at hr htf ⊢
        rcases stay with ⟨-, trapframe⟩ | unshared
        · rw [trapframe, htf]
        · exact absurd at_ (unshared q r hq hr)
      · rw [image o ho, htf]
    · rw [high q r hq at_ _ (by decide)]
      exact top.trampoline
    · rw [high q r hq at_ _ le_rfl]
      exact top.trapframe
    · rw [low t q r hq at_, image q hq]
      exact seat.covers t
    · rw [image q hq]
      by_cases hq' : q' = p
      · rw [hq'] at at' ⊢
        have same := (placed.seat r at').agree t q (by rw [image q hq, at_])
        rw [image q hq] at same
        exact same.symm
      · rw [image q' hq'] at at' ⊢
        exact seat.agree t q' at'
    · by_cases hq' : q' = p
      · rw [hq'] at at' ⊢
        exact ((placed.seat r at').alone l q (by rw [image q hq, at_])).symm
      · rw [image q' hq'] at at'
        exact seat.alone l q' at'

/-- The processes keep their memory, and a process that is neither free nor a zombie may change its
descriptors. -/
theorem Inv.still (I : Inv k boot tight lone s) (alive : (s.proc p).state.alive = true)
    (st : Still p s s') (files : Files 0 s')
    (own : ∃ lost, (lone → lost = 0) ∧ Own k (boot + lost) s') : Inv k boot tight lone s' := by
  have state : ∀ q, (s'.proc q).state = (s.proc q).state := fun q => by
    rw [State.proc, State.proc, st.table]
  refine ⟨fun q => ?_, files, own⟩
  have old := I.placed q
  refine ⟨fun unused => ?_, fun busy => ?_, fun closed => ?_, fun r at_ => ?_⟩
  · rw [state] at unused
    have blank := old.blank unused
    exact ⟨(st.pagetable q).trans blank.pagetable, (st.trapframe q).trans blank.trapframe,
      (st.sz q).trans blank.sz⟩
  · rw [state] at busy
    rw [st.pagetable, st.trapframe]
    exact old.busy busy
  · rw [state] at closed
    have ne : q ≠ p := by
      rintro rfl
      rcases closed with h | h <;> rw [h] at alive <;> cases alive
    rw [st.image q ne]
    exact old.closed closed
  · rw [st.pagetable] at at_
    have seat := old.seat r at_
    have map := st.maps r (roots_mem at_)
    obtain ⟨o, tf, hr, htf, top⟩ := seat.top
    refine ⟨?_, ⟨o, tf, ?_, ?_, ?_⟩, fun t => ?_, fun t q' at' => ?_, fun l q' at' => ?_⟩
    · rw [st.sz]
      exact seat.small
    · rw [st.pagetable, hr]
    · rw [st.trapframe, htf]
    · rwa [map]
    · rw [map, st.sz]
      exact seat.covers t
    · rw [st.pagetable] at at'
      rw [st.sz, st.sz]
      exact seat.agree t q' at'
    · rw [st.pagetable] at at'
      exact seat.alone l q' at'

theorem Inv.setTable (I : Inv k boot tight lone s)
    (unused : ∀ q, (t.proc q).state = .unused ↔ (s.proc q).state = .unused)
    (zombie : ∀ q, (t.proc q).state = .zombie →
      (s.proc q).state = .zombie ∨ ∀ fd, (s.image q).ofile fd = none) :
    Inv k boot tight lone (s.setTable t) := by
  obtain ⟨lost, none, o⟩ := I.own
  refine ⟨fun q => ?_, I.files.of_same rfl rfl rfl, lost, none, o.setTable t⟩
  have old := I.placed q
  refine ⟨fun h => old.blank ((unused q).mp h), fun h => old.busy (mt (unused q).mpr h), ?_, ?_⟩
  · rintro (h | h)
    · exact old.closed (.inl ((unused q).mp h))
    · exact (zombie q h).elim (fun h => old.closed (.inr h)) id
  · intro r at_
    obtain ⟨small, top, covers, agree, alone⟩ := old.seat r at_
    exact ⟨small, top, covers, agree, alone⟩

theorem Inv.setProc (I : Inv k boot tight lone s) (before : (s.proc p).state.alive = true)
    (after : v.state.alive = true) : Inv k boot tight lone (s.setTable (s.table.set p v)) := by
  refine I.setTable (fun q => ?_) fun q zombie => .inl ?_
  · by_cases hq : q = p
    · rw [hq, set_self]
      exact iff_of_false (fun h => by rw [h] at after; cases after)
        fun h => by rw [h] at before; cases before
    · rw [set_of_ne hq]
      rfl
  · by_cases hq : q = p
    · rw [hq, set_self] at zombie
      rw [zombie] at after
      cases after
    · rwa [set_of_ne hq] at zombie

theorem Inv.setMem (I : Inv k boot tight lone s) (alive : (s.proc p).state.alive = true)
    (maps : ∀ r ∈ s.roots, mapOf m.word r = mapOf s.mem.word r)
    (own : ∃ lost, (lone → lost = 0) ∧ Own k (boot + lost) (s.setMem m)) :
    Inv k boot tight lone (s.setMem m) :=
  I.still alive ⟨fun _ => rfl, fun _ => rfl, fun _ => rfl, fun _ _ => rfl, rfl, maps⟩
    (I.files.of_same rfl rfl rfl) own

end Changes

section Memory

theorem Own.write (o : Own k X s) (hx : x ∈ X + s.trapframes + s.pipes) (v : Page) :
    Own k X (s.setMem (s.mem.setPage x v)) ∧
      Kept (allPages s.mem.word s.roots) s.mem (s.mem.setPage x v) := Spaces.write o hx v

theorem held_trapframe (X : Multiset Addr) (at_ : (s.image p).trapframe = some tf) :
    tf ∈ X + s.trapframes + s.pipes :=
  Multiset.mem_add.mpr (.inl (Multiset.mem_add.mpr (.inr (trapframe_mem at_))))

/-- The address spaces other than `r` stay as they are. -/
structure Beside (r : Addr) (s s' : State n) : Prop where
  pagetable : ∀ q, (s'.image q).pagetable = (s.image q).pagetable
  kept : Kept (allPages s.mem.word (s.roots.erase r)) s.mem s'.mem

variable (I : Inv k boot tight lone s) {sz : UInt64}
include I

omit I in
theorem Own.slot_frame (o : Own k X s) (at_ : (s.image p).pagetable = some r)
    (frame : (s.image q).trapframe = some tf) (top : Top k (mapOf s.mem.word r) tf) :
    ∃ pte, Radix.slot fmt s.mem.word (ix trapframeVa) 2 r = some pte ∧
      s.mem.word pte.1 pte.2 &&& pteV ≠ 0 ∧ pte2pa (s.mem.word pte.1 pte.2) = tf := by
  have tree := o.tree r (roots_mem at_)
  have low : trapframeVa < maxva := by decide
  have page : trapframeVa.toNat / 4096 = trapframePn := by decide
  obtain ⟨aligned, small⟩ := o.holds.small (Multiset.mem_add.mpr (.inl (held_trapframe X frame)))
  cases hs : Radix.slot fmt s.mem.word (ix trapframeVa) 2 r with
  | none =>
    have missing := tree.of_slot_none low hs
    rw [page, top.trapframe] at missing
    cases missing
  | some pte =>
    have found := tree.of_slot_some low hs
    rw [page, top.trapframe] at found
    have valid : s.mem.word pte.1 pte.2 &&& pteV ≠ 0 := by
      intro zero
      simp [fmt, zero] at found
    have entry : s.mem.word pte.1 pte.2 = trapframeEntry tf := by
      simpa [fmt, valid] using found
    refine ⟨pte, rfl, valid, ?_⟩
    rw [entry, trapframeEntry, UInt64.or_assoc, pte2pa_entry aligned small (by decide)]

section

variable (at_ : (s.image p).pagetable = some r) (alive : (s.proc p).state.alive = true)

include at_ alive

theorem Inv.wp_uservec
    (next : ∀ q tf, (s.image q).pagetable = some r → (s.image q).trapframe = some tf →
      ∀ v : Page, v = (fun i => if h : 5 ≤ i.val ∧ i.val < 36 then regs ⟨i.val - 5, reg_lt h⟩
        else s.mem.word tf i) →
      Inv k boot tight lone (s.setMem (s.mem.setPage tf v)) → Q () (s.setMem (s.mem.setPage tf v))) :
    wp (uservec p regs) E Q s := by
  obtain ⟨lost, none, o⟩ := I.own
  obtain ⟨q, tf, hr, htf, top⟩ := ((I.placed p).seat r at_).top
  obtain ⟨pte, hs, valid, page⟩ := o.slot_frame at_ htf top
  refine .get (wp_onMem (.seq ((wp_walk_false (by decide)).mpr ?_)))
  rw [pagetable_eq at_, hs]
  simp only [wp_bind, load, wp_get, wp_pure]
  rw [if_neg valid, wp_modify, page]
  generalize hv : (fun i : Fin 512 => if h : 5 ≤ i.val ∧ i.val < 36 then
    regs ⟨i.val - 5, reg_lt h⟩ else s.mem.word tf i) = v
  obtain ⟨o', kept⟩ := o.write (held_trapframe _ htf) v
  refine next q tf hr htf v hv.symm (I.setMem alive (fun r' hr' => ?_) ⟨lost, none, o'⟩)
  exact (kept.space hr').mapOf_eq

theorem Inv.wp_copyout {Q : Bool → State n → Prop}
    (next : ∀ b m, Inv k boot tight lone (s.setMem m) → Beside r s (s.setMem m) →
      Q b (s.setMem m)) : wp (onMem (copyout (s.pagetable p) dstva src)) E Q s := by
  obtain ⟨lost, none, o⟩ := I.own
  obtain ⟨q, tf, -, -, top⟩ := ((I.placed p).seat r at_).top
  refine o.wp_copyout at_ top fun b m o' maps kept => ?_
  exact next b m (I.setMem alive maps ⟨lost, none, o'⟩) ⟨fun _ => rfl, kept⟩

theorem Inv.wp_userStore :
    wp (userStore p va b) E (fun _ s' => Inv k boot tight lone s' ∧ Beside r s s') s :=
  .get (.seq (I.wp_copyout at_ alive fun _ _ I' beside => ⟨I', beside⟩))

end

omit I in
theorem setImage_pagetable (q : Fin n) :
    ((s.setImage p { s.image p with sz := sz }).image q).pagetable = (s.image q).pagetable := by
  by_cases hq : q = p
  · rw [hq, setImage_self]
  · rw [setImage_of_ne hq]

omit I in
theorem setImage_trapframe (q : Fin n) :
    ((s.setImage p { s.image p with sz := sz }).image q).trapframe = (s.image q).trapframe := by
  by_cases hq : q = p
  · rw [hq, setImage_self]
  · rw [setImage_of_ne hq]

/-- The size of `p` and the user pages of its page table `r` have changed. -/
theorem Inv.resize (at_ : (s.image p).pagetable = some r) (alive : (s.proc p).state.alive = true)
    (unshared : tight → s.Unshared p) (own : ∃ lost, (lone → lost = 0) ∧
      Own k (boot + lost) ((s.setImage p { s.image p with sz := sz }).setMem m))
    (resized : Resized s r (s.image p).sz sz m) :
    Inv k boot tight lone ((s.setImage p { s.image p with sz := sz }).setMem m) := by
  have seat := (I.placed p).seat r at_
  have maps : ∀ q r', (s.image q).pagetable = some r' → r' ≠ r →
      mapOf m.word r' = mapOf s.mem.word r' := fun q r' at' ne =>
    (resized.others.space (Finset.mem_erase.mpr ⟨ne, roots_mem at'⟩)).mapOf_eq
  have self : (s.setImage p { s.image p with sz := sz }).image p = { s.image p with sz := sz } :=
    setImage_self
  refine I.update (p := p) (fun q => setImage_of_ne) (fun q _ => .refl _) (fun q r' _ at' v hv => ?_)
    (fun t q r' ne at' => ?_) (.inl ⟨setImage_pagetable p, setImage_trapframe p⟩) ?_
    (I.files.of_same rfl rfl ?_) own
  · by_cases same : r' = r
    · rw [same]
      exact resized.high v hv
    · exact congrFun (maps q r' at' same) v
  · refine maps q r' at' ?_
    rintro rfl
    exact unshared t q r' ne at_ at'
  · refine ⟨fun unused => ?_, fun busy => ?_, fun closed => ?_, fun r' at' => ?_⟩
    · replace unused : (s.proc p).state = .unused := unused
      rw [unused] at alive
      cases alive
    · show ∃ r tf, ((s.setImage p _).image p).pagetable = some r ∧
        ((s.setImage p _).image p).trapframe = some tf
      rw [self]
      exact (I.placed p).busy busy
    · show ∀ fd, ((s.setImage p _).image p).ofile fd = none
      rw [self]
      exact (I.placed p).closed closed
    · replace at' : ((s.setImage p _).image p).pagetable = some r' := at'
      rw [self] at at'
      obtain rfl : r = r' := Option.some.inj (at_.symm.trans at')
      obtain ⟨o, tf, hr, htf, top⟩ := seat.top
      refine ⟨?_, ⟨o, tf, (setImage_pagetable o).trans hr, (setImage_trapframe o).trans htf,
        ?_, ?_⟩, fun t => ?_, fun t q at_q => ?_, fun l q at_q => ?_⟩
      · show ((s.setImage p _).image p).sz ≤ _
        rw [self]
        exact resized.small
      · exact (resized.high _ (by decide)).trans top.trampoline
      · exact (resized.high _ le_rfl).trans top.trapframe
      · show (mapOf m.word r).Covers (pageCount ((s.setImage p _).image p).sz)
        rw [self]
        exact resized.covers (seat.covers t)
      · have at_q : (s.image q).pagetable = some r := (setImage_pagetable q).symm.trans at_q
        have hq : q = p := by
          by_contra ne
          exact unshared t q r ne at_ at_q
        rw [hq]
      · exact seat.alone l q ((setImage_pagetable q).symm.trans at_q)
  · funext ⟨q, fd⟩
    show ((s.setImage p _).image q).ofile fd = _
    by_cases hq : q = p
    · rw [hq, self]
      rfl
    · rw [setImage_of_ne hq]
      rfl

theorem Inv.wp_growproc (at_ : (s.image p).pagetable = some r)
    (alive : (s.proc p).state.alive = true) (guard : tight → i = 0 ∨ s.Unshared p)
    (err : tight ∨ ∀ e, E e) :
    wp (growproc k p i) E (fun _ s' => Inv k boot tight lone s' ∧ Beside r s s') s := by
  by_cases stays : i = 0
  · rw [stays]
    have same : s.setImage p { s.image p with sz := (s.image p).sz } = s := setImage_eq
    show Inv k boot tight lone (s.setImage p _) ∧ Beside r s (s.setImage p _)
    rw [same]
    exact ⟨I, fun _ => rfl, .refl⟩
  · obtain ⟨lost, none, o⟩ := I.own
    have seat := (I.placed p).seat r at_
    obtain ⟨q, tf, -, -, top⟩ := seat.top
    refine Proc.wp_growproc o at_ top seat.small (err.imp_left seat.covers)
      fun b sz m o' resized _ => ⟨?_, setImage_pagetable, resized.others⟩
    exact I.resize at_ alive (fun t => (guard t).resolve_left stays) ⟨lost, none, o'⟩ resized

end Memory

section Calls

variable (I : Inv k boot tight lone s)
include I

theorem Inv.wp_sysClose (alive : (s.proc p).state.alive = true) :
    wp (sysClose k p fd) E (fun _ s' => Inv k boot tight lone s') s := by
  obtain ⟨lost, none, o⟩ := I.own
  exact Proc.wp_sysClose I.files o fun b s' F' o' st => I.still alive st F' ⟨lost, none, o'⟩

theorem Inv.wp_sysPipe (at_ : (s.image p).pagetable = some r)
    (alive : (s.proc p).state.alive = true) :
    wp (sysPipe k p fdarray) E (fun _ s' => Inv k boot tight lone s') s := by
  obtain ⟨lost, none, o⟩ := I.own
  obtain ⟨q, tf, -, -, top⟩ := ((I.placed p).seat r at_).top
  exact Proc.wp_sysPipe I.files o at_ top fun b s' F' o' st => I.still alive st F' ⟨lost, none, o'⟩

theorem Inv.wp_exit (alive : (s.proc p).state.alive = true) (err : E .initExiting) :
    wp (Proc.exit k p status) E (fun _ s' => Inv k boot tight lone s') s := by
  obtain ⟨lost, none, o⟩ := I.own
  refine .get (wp_ite (fun _ => err) fun _ => .seq ?_)
  refine wp_exitFiles (List.finRange nofile) I.files o
    (fun fd out => absurd (List.mem_finRange fd) out) fun s1 F1 o1 st1 closed => wp_modify.mpr ?_
  have I1 := I.still alive st1 F1 ⟨lost, none, o1⟩
  have alive1 : (s1.table.proc p).state.alive = true := by
    rwa [st1.table]
  refine I1.setTable (fun q => ?_) fun q zombie => ?_
  · by_cases hq : q = p
    · rw [hq, exit_self]
      refine iff_of_false nofun fun unused => ?_
      replace unused : (s1.table.proc p).state = .unused := unused
      rw [unused] at alive1
      cases alive1
    · exact exit_dead hq rfl
  · by_cases hq : q = p
    · rw [hq]
      exact .inr closed
    · exact .inl ((exit_dead hq rfl).mp zombie)

/-- A zombie that no other process shares a page table with is freed. -/
theorem Inv.wp_freeproc (zombie : (s.proc p).state = .zombie) (unshared : s.Unshared p)
    (err : tight ∨ ∀ e, E e)
    (next : ∀ s', Inv k boot tight lone s' → Q () s') : wp (freeproc k p) E Q s := by
  obtain ⟨lost, none, o⟩ := I.own
  refine Proc.wp_freeproc o ⟨unshared, fun r at_ => ?_⟩ fun m o' kept => next _ ?_
  · have seat := (I.placed p).seat r at_
    obtain ⟨q, tf, -, -, top⟩ := seat.top
    exact ⟨⟨tf, top⟩, seat.small, err.imp_left seat.covers⟩
  have others : ∀ q, q ≠ p → (s.freed p).image q = s.image q := fun q => setImage_of_ne
  have self : (s.freed p).image p =
      { s.image p with trapframe := .none, pagetable := .none, sz := 0 } := setImage_self
  have maps : ∀ q r, q ≠ p → (s.image q).pagetable = some r →
      mapOf m.word r = mapOf s.mem.word r := fun q r ne at_ =>
    (kept.space (roots_mem (p := q) (by rw [others q ne, at_]))).mapOf_eq
  refine I.update (p := p) others (fun q ne => .inl ?_)
    (fun q r ne at_ v _ => congrFun (maps q r ne at_) v) (fun _ => maps) (.inr unshared) ?_
    (I.files.of_same rfl rfl ?_) ⟨lost, none, o'⟩
  · show ((s.table.freeproc p).proc q).state = (s.table.proc q).state
    rw [freeproc_proc, if_neg ne]
  · have state : (((s.freed p).setMem m).proc p).state = .unused := by
      show ((s.table.freeproc p).proc p).state = .unused
      rw [freeproc_proc, if_pos rfl]
    refine ⟨fun _ => ?_, fun busy => absurd state busy, fun _ fd => ?_, fun r at_ => ?_⟩
    · show ((s.freed p).image p).Blank
      rw [self]
      exact ⟨rfl, rfl, rfl⟩
    · show ((s.freed p).image p).ofile fd = .none
      rw [self]
      exact (I.placed p).closed (.inr zombie) fd
    · replace at_ : ((s.freed p).image p).pagetable = some r := at_
      rw [self] at at_
      cases at_
  · funext ⟨q, fd⟩
    show ((s.freed p).image q).ofile fd = _
    by_cases hq : q = p
    · rw [hq, self]
      rfl
    · rw [others q hq]
      rfl

section

variable (at_ : (s.image p).pagetable = some r) (alive : (s.proc p).state.alive = true)

include at_ alive

theorem Inv.wp_reap {α : Type} {src : List UInt8} {a b : α} (zombie : (s.proc pp).state = .zombie)
    (unshared : s.Unshared pp) (err : tight ∨ ∀ e, E e) : wp (do
      if ← (if addr ≠ 0 then onMem (copyout (s.pagetable p) addr src) else return true) then
        freeproc k pp
        return a
      else return b) E (fun _ s' => Inv k boot tight lone s') s := by
  have free : ∀ {m}, Inv k boot tight lone (s.setMem m) → wp (do
      freeproc k pp
      return a) E (fun _ s' => Inv k boot tight lone s') (s.setMem m) := fun I' =>
    .seq (I'.wp_freeproc zombie unshared err fun s' I'' => I'')
  refine .seq (wp_ite (fun _ => ?_) fun _ => ?_)
  · refine I.wp_copyout at_ alive fun b m I' _ => wp_ite (fun _ => free I') fun _ => I'
  · refine wp_ite (fun _ => ?_) fun no => absurd rfl no
    exact free (m := s.mem) I

theorem Inv.wp_wait {addr : UInt64} (guard : ∀ pp, s.table.findZombie p = some pp → s.Unshared pp)
    (err : tight ∨ ∀ e, E e) :
    wp (Proc.wait k p addr) E (fun _ s' => Inv k boot tight lone s') s := by
  refine .get ?_
  cases found : s.table.findZombie p with
  | some pp =>
    exact I.wp_reap at_ alive (findZombie_some found).2 (guard pp found) err
  | none =>
    refine wp_ite (fun _ => I) fun _ => .seq (wp_set.mpr ?_)
    exact I.setProc alive rfl

theorem Inv.wp_threadJoin {retval : UInt64}
    (guard : ∀ pp, s.table.findThread p = some pp → s.Unshared pp) (err : tight ∨ ∀ e, E e) :
    wp (Proc.threadJoin k p retval) E (fun _ s' => Inv k boot tight lone s') s := by
  refine .get ?_
  cases found : s.table.findThread p with
  | none => exact I
  | some pp =>
    exact I.wp_reap at_ alive (findThread_some found).2 (guard pp found) err

end

end Calls

end Xv6.Proc
