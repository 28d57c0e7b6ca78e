import Xv6.Proc.Conservation

/-! Threads share the page table of their creator: which pages stay in use, whose trapframe it maps,
and which size goes with it. -/

namespace Xv6.Proc

open Kernel Vm Wp Transition Multiset

variable {n : Nat} {k : Symbols} {s s₀ s' : State n} {p q : Fin n} {m : Mem} {r tf x : Addr}
  {boot : Multiset Addr} {initcode : List UInt8} {E : Stop → Prop} {tight lone : Prop}

section Freed

/-- The pages that a process reaches through its page table, and its trapframe. -/
noncomputable def State.reachable (s : State n) (p : Fin n) : Multiset Addr :=
  State.page (s.image p).trapframe + (s.image p).pagetable.elim 0 fun r => spacePages s.mem.word r

theorem Inv.not_free (I : Inv k boot tight lone s) (hx : x ∈ s.reachable p) :
    x ∉ s.mem.freelist := by
  obtain ⟨lost, -, o⟩ := I.own
  intro free
  refine disjoint_left.mp (nodup_add.mp o.holds.nodup).2.2
    (mem_coe.mpr free) ?_
  rcases mem_add.mp hx with hx | hx
  · cases frame : (s.image p).trapframe with
    | none =>
      rw [frame] at hx
      cases hx
    | some tf =>
      rw [frame, State.page_some, mem_singleton] at hx
      rw [hx]
      exact mem_add.mpr (.inl (held_trapframe _ frame))
  · cases at_ : (s.image p).pagetable with
    | none =>
      rw [at_] at hx
      cases hx
    | some r =>
      rw [at_] at hx
      exact mem_add.mpr (.inr (mem_of_le (spacePages_le (roots_mem at_)) hx))

/-- As long as no step frees a page table that another process has, no page that a process reaches
is free, and no page is freed while it is free. -/
theorem in_use_not_free [NeZero n] (start : Holds k m boot)
    (init : userinit k initcode (Proc.start m : State n) = .ok ((), s₀))
    (run : Reach (step k) Safe s₀ s) :
    (∀ p, (s.proc p).state = .used ∨ (s.proc p).state.alive = true →
      ∀ x ∈ s.reachable p, x ∉ s.mem.freelist) ∧ s.mem.twice = false := by
  obtain ⟨boot', -, I₀⟩ : ∃ boot', (boot' = boot ∨ ∃ x, boot' = x ::ₘ boot) ∧
    Inv k boot' False False s₀ := Inv.of_userinit start init
  have I : Inv k boot' False False s :=
    run.invariant I₀ fun _ _ _ I safe taken => I.step taken safe nofun nofun
  obtain ⟨lost, -, o⟩ := I.own
  exact ⟨fun p _ x hx => I.not_free hx, o.holds.once⟩

theorem in_use_not_free_thread : ∃ s : State 2, (s.proc 1).state = .runnable ∧
    s.pagetable 1 = s.pagetable 0 ∧ ∀ x ∈ s.reachable 1, x ∉ s.mem.freelist := by
  obtain ⟨s, run, state, same⟩ : ∃ s, Reach (step sixteenPages) Safe sixteenPages.first s ∧
      (s.proc 1).state = .runnable ∧ s.pagetable 1 = s.pagetable 0 :=
    exists_reach_of_exec (fun s l h => by cases l <;> trivial)
      [.pick 0, .threadCreate 0 5 6 4096]
      (show (Transition.exec (step sixteenPages) (fun _ l => match l with
        | .pick _ | .threadCreate .. => true
        | _ => false) _ sixteenPages.first).any _ = true by decide +kernel)
  refine ⟨s, state, same, ?_⟩
  exact (in_use_not_free sixteenPages.holds sixteenPages.userinit_eq run).1 1
    (.inr (by rw [state]; rfl))

/-- A thread exits and `wait` frees the page table that its creator still runs on. -/
theorem freed_in_use : ∃ s : State 2,
    Reach (step sixteenPages) (fun _ _ => True) sixteenPages.first s ∧
    (s.proc 0).state = .running ∧ s.pagetable 0 ∈ s.reachable 0 ∧
    s.pagetable 0 ∈ s.mem.freelist := by
  obtain ⟨s, run, running, root, free⟩ : ∃ s, Reach (step sixteenPages) (fun _ _ => True)
      sixteenPages.first s ∧ (s.proc 0).state = .running ∧
      (s.image 0).pagetable = some (s.pagetable 0) ∧ s.pagetable 0 ∈ s.mem.freelist :=
    exists_reach (step sixteenPages) (fun _ _ => True) sixteenPages.first
      [.pick 0, .threadCreate 0 5 6 4096, .pick 1, .exit 1 3, .wait 0 0] (by decide +kernel)
  refine ⟨s, run, running, mem_add.mpr (.inr ?_), free⟩
  rw [root]
  exact root_mem_spacePages

end Freed

section Trapframes

/-- `userret` of `trampoline.S` for `p`: the registers from `ra` on, from the page that the page
table of `p` maps at `TRAPFRAME`. -/
def userret (p : Fin n) : P n (Fin 31 → UInt64) := do
  let s ← get
  onMem do
    match ← walk (s.pagetable p) trapframeVa false with
    | none => throw .nullPointer
    | some pte =>
      let v ← load pte
      if v &&& pteV = 0 then throw .nullPointer
      else
        let m ← get
        return fun i => m.word (pte2pa v) ⟨i.val + 5, slot_lt i⟩

/-- The page table of `p` maps `TRAMPOLINE` to the trampoline and `TRAPFRAME` to the trapframe of
`p`, where `uservec` saves the registers and `userret` restores them from. -/
structure OwnFrame (k : Symbols) (s : State n) (p : Fin n) : Prop where
  maps : Top k (mapOf s.mem.word (s.pagetable p)) (s.trapframe p)
  frame : (s.image p).trapframe = some (s.trapframe p)
  uservec : ∀ regs, ∃ v, Proc.uservec p regs s = .ok ((), s.setMem (s.mem.setPage (s.trapframe p) v)) ∧
    ∀ i : Fin 31, v ⟨i.val + 5, slot_lt i⟩ = regs i
  userret : Proc.userret p s =
    .ok ((fun i => s.mem.word (s.trapframe p) ⟨i.val + 5, slot_lt i⟩), s)

theorem Inv.wp_userret (I : Inv k boot tight lone s) (at_ : (s.image p).pagetable = some r)
    (frame : (s.image q).trapframe = some tf) (top : Top k (mapOf s.mem.word r) tf)
    (next : Q (fun i => s.mem.word tf ⟨i.val + 5, slot_lt i⟩) s) : wp (Proc.userret p) E Q s := by
  obtain ⟨lost, -, o⟩ := I.own
  obtain ⟨pte, hs, valid, page⟩ := o.slot_frame at_ frame top
  refine .get (wp_onMem (.seq ((wp_walk_false (by decide)).mpr ?_)))
  rw [pagetable_eq at_, hs]
  simp only [wp_bind, load, wp_get, wp_pure]
  rw [if_neg valid]
  refine .get ?_
  rwa [page]

/-- Without threads a process is alone with its page table, which maps its own trapframe. -/
theorem Inv.ownFrame (I : Inv k boot tight True s) (alive : (s.proc p).state.alive = true) :
    OwnFrame k s p := by
  obtain ⟨r, tf, at_, frame⟩ := (I.placed p).busy (by
    intro unused
    rw [unused] at alive
    cases alive)
  have seat := (I.placed p).seat r at_
  obtain ⟨q, tf', hr, htf, top⟩ := seat.top
  obtain rfl : q = p := seat.alone trivial q hr
  obtain rfl : tf = tf' := Option.some.inj (frame.symm.trans htf)
  have mine : s.trapframe q = tf := trapframe_eq frame
  refine ⟨by rwa [mine, pagetable_eq at_], by rw [mine, frame], fun regs => ?_, ?_⟩
  · have spec : wp (Proc.uservec q regs) (fun _ => False) (fun _ s' => ∃ v : Page,
        s' = s.setMem (s.mem.setPage tf v) ∧ ∀ i : Fin 31, v ⟨i.val + 5, slot_lt i⟩ = regs i) s := by
      refine I.wp_uservec at_ alive fun o tf' hr' htf' v hv _ => ?_
      obtain rfl : o = q := seat.alone trivial o hr'
      obtain rfl : tf = tf' := Option.some.inj (frame.symm.trans htf')
      refine ⟨v, rfl, fun i => ?_⟩
      rw [hv]
      simp
    obtain ⟨⟨⟩, s', call, v, rfl, saved⟩ := spec.exists_ok
    rw [mine]
    exact ⟨v, call, saved⟩
  · have spec := I.wp_userret (E := fun _ => False) (Q := fun regs s' =>
      regs = (fun i => s.mem.word tf ⟨i.val + 5, slot_lt i⟩) ∧ s' = s) at_ frame top ⟨rfl, rfl⟩
    obtain ⟨regs, s', call, rfl, rfl⟩ := spec.exists_ok
    rwa [mine]

/-- Without `thread_create` a process that may return to user space saves its registers to its own
trapframe and restores them from there. -/
theorem frame_own [NeZero n] (start : Holds k m boot)
    (init : userinit k initcode (Proc.start m : State n) = .ok ((), s₀))
    (run : Reach (step k) (fun _ l => l.isThreadCreate = false) s₀ s)
    (alive : (s.proc p).state.alive = true) : OwnFrame k s p := by
  obtain ⟨boot', -, I₀⟩ : ∃ boot', (boot' = boot ∨ ∃ x, boot' = x ::ₘ boot) ∧
    Inv k boot' False True s₀ := Inv.of_userinit start init
  exact (I₀.run_single run).ownFrame alive

theorem frame_own_forked : ∃ s : State 2, (s.proc 1).state = .running ∧
    s.trapframe 1 ≠ s.trapframe 0 ∧ OwnFrame sixteenPages s 1 := by
  obtain ⟨s, run, running, ne⟩ : ∃ s, Reach (step sixteenPages)
      (fun _ l => l.isThreadCreate = false) sixteenPages.first s ∧ (s.proc 1).state = .running ∧
      s.trapframe 1 ≠ s.trapframe 0 :=
    exists_reach_of_exec (fun s l h => by simpa using h) [.pick 0, .fork 0, .pick 1]
      (show (Transition.exec (step sixteenPages) (fun _ l => !l.isThreadCreate) _
        sixteenPages.first).any _ = true by decide +kernel)
  exact ⟨s, running, ne, frame_own sixteenPages.holds sixteenPages.userinit_eq run
    (by rw [running]; rfl)⟩

/-- The registers of a thread go to the trapframe of its creator. -/
theorem frame_of_creator : ∃ s : State 2,
    Reach (step sixteenPages) (fun _ _ => True) sixteenPages.first s ∧
    (s.proc 1).state = .running ∧ s.trapframe 1 ≠ s.trapframe 0 ∧
    mapOf s.mem.word (s.pagetable 1) trapframePn = some (trapframeEntry (s.trapframe 0)) ∧
    s.mem.word (s.trapframe 0) 5 = 7 ∧ s.mem.word (s.trapframe 1) 5 ≠ 7 :=
  exists_reach (step sixteenPages) (fun _ _ => True) sixteenPages.first
    [.pick 0, .threadCreate 0 5 6 4096, .pick 1, .trap 1 fun _ => 7] (by decide +kernel)

end Trapframes

section Stacks

section Boot

variable {f : Map} {R : Multiset Addr} {i : Nat} {ps : List Nat}

/-- The entry for the kernel stack `pa`. -/
def stackPte (pa : Addr) : UInt64 := pa2pte pa ||| (pteR ||| pteW) ||| pteV

def MapsStack (f : Map) (p : Nat) (pa : Addr) : Prop :=
  f ((kstackVa p).toNat / 4096) = some (stackPte pa)

theorem kstackVa_fits : ∀ p < nproc, (kstackVa p).toNat % 4096 = 0 ∧ kstackVa p < maxva := by
  decide +kernel

theorem wp_mapstack (t : Vm.Table k m R x f) (low : i < nproc) :
    wp (mapstack x i) (fun _ => True) (fun _ m' => f ((kstackVa i).toNat / 4096) = none ∧
      ∃ pa, Vm.Table k m' (pa ::ₘ R) x
        (Function.update f ((kstackVa i).toNat / 4096) (some (stackPte pa)))) m := by
  have ⟨aligned, fits⟩ := kstackVa_fits i low
  rw [mapstack]
  -- only an abstract address keeps the unifier from computing
  generalize kstackVa i = va at aligned fits ⊢
  refine .seq (wp_kalloc t.holds (fun _ => trivial) fun pa fresh m₁ holds same => ?_)
  have t₁ : Vm.Table k m₁ (pa ::ₘ R) x f := by
    refine t.congr (fun y hy => same y ?_) (by rwa [cons_add])
    rintro rfl
    exact fresh (mem_add.mpr (.inr hy))
  simp only [kvmmap]
  exact .seq (wp_mappages t₁ aligned fits (fun _ => trivial) (fun _ _ _ _ => trivial)
    fun free m₂ t₂ _ => ⟨free, pa, t₂⟩)

/-- `mappages` stops at an address that is mapped, so no pass touches the mapping of another. -/
theorem wp_mapstacks (t : Vm.Table k m R x f) (low : ∀ p ∈ ps, p < nproc) :
    wp (ps.forM (mapstack x)) (fun _ => True) (fun _ m' => ∃ (pas : List Addr) (f' : Map),
      Vm.Table k m' (R + pas) x f' ∧ (∀ v, f v ≠ none → f' v = f v) ∧
      List.Forall₂ (MapsStack f') ps pas) m := by
  induction ps generalizing m R f with
  | nil => exact ⟨[], f, by rwa [coe_nil, add_zero], fun _ _ => rfl, .nil⟩
  | cons p ps ih =>
    have ⟨here, later⟩ := List.forall_mem_cons.mp low
    refine (wp_mapstack t here).bind fun _ m₁ ⟨free, pa, t₁⟩ => ?_
    refine (ih t₁ later).mono (fun _ m' ⟨pas, f', t', kept, maps⟩ => ?_) fun _ => id
    refine ⟨pa :: pas, f', ?_, fun v mapped => ?_, .cons ?_ maps⟩
    · rwa [← cons_coe, add_cons, ← cons_add]
    · have ne : v ≠ (kstackVa p).toNat / 4096 := fun e => mapped (e ▸ free)
      rw [kept v (by rwa [Function.update_of_ne ne]), Function.update_of_ne ne]
    · rw [MapsStack, kept _ (by simp), Function.update_self]

/-- The page table `kpgtbl` maps the kernel stacks of `n` entries, each to a page of `boot` that is
its own. -/
def StacksMapped (boot : Multiset Addr) (m : Mem) (kpgtbl : Addr) (n : Nat) : Prop :=
  ∃ pas : List Addr, pas.Nodup ∧ (pas : Multiset Addr) ≤ boot ∧
    List.Forall₂ (MapsStack (mapOf m.word kpgtbl)) (List.range n) pas

theorem stacksMapped (start : Holds k m boot) (few : n ≤ nproc) (t : Vm.Table k m₀ R x f)
    (run : procMapstacks n x m₀ = .ok ((), m)) : StacksMapped boot m x n := by
  have spec := wp_mapstacks t fun p hp => (List.mem_range.mp hp).trans_le few
  obtain ⟨pas, f', t', -, maps⟩ := (wp_ok run).mp spec
  have parts : boot = R + pas + tablePages m.word x :=
    Multiset.add_right_inj.mp (start.part.trans t'.holds.part.symm)
  refine ⟨pas, ?_, ?_, by rwa [t'.mapOf_eq]⟩
  · have held := (Multiset.nodup_add.mp t'.holds.held_nodup).1
    exact Multiset.coe_nodup.mp (Multiset.nodup_add.mp held).2.1
  · rw [parts]
    exact (Multiset.le_add_left ..).trans (Multiset.le_add_right ..)

end Boot

variable {α β : Type}

/-- Every entry has the kernel stack that `procinit` gave it. -/
def OwnStacks (s : State n) : Prop := ∀ p, (s.image p).kstack = kstackVa p

theorem OwnStacks.setImage (h : OwnStacks s) (same : im.kstack = (s.image p).kstack) :
    OwnStacks (s.setImage p im) := by
  intro q
  by_cases hq : q = p
  · rw [hq, setImage_self, same, h p]
  · rw [setImage_of_ne hq, h q]

def KeepsStacks (f : P n α) : Prop :=
  ∀ s, OwnStacks s → wp f (fun _ => True) (fun _ => OwnStacks) s

namespace KeepsStacks

theorem pure (a : α) : KeepsStacks (Pure.pure a : P n α) := fun _ h => h

theorem throw (e : Stop) : KeepsStacks (MonadExcept.throw e : P n α) := fun _ _ => trivial

theorem bind {g : α → P n β} (first : KeepsStacks f) (next : ∀ a, KeepsStacks (g a)) :
    KeepsStacks (f >>= g) :=
  fun s h => (first s h).bind fun a s' h' => next a s' h'

theorem get {g : State n → P n β} (next : ∀ s, OwnStacks s → KeepsStacks (g s)) :
    KeepsStacks (MonadState.get >>= g) :=
  fun s h => next s h s h

theorem set (h : OwnStacks s) : KeepsStacks (MonadStateOf.set s : P n PUnit) := fun _ _ => h

theorem modify (keeps : ∀ s, OwnStacks s → OwnStacks (g s)) : KeepsStacks (modify g : P n PUnit) :=
  keeps

theorem onMem (f : M α) : KeepsStacks (onMem f : P n α) := by
  intro s h
  refine wp_onMem ?_
  unfold wp
  split
  · exact h
  · trivial

theorem discard {f : P n α} (h : KeepsStacks f) : KeepsStacks (Functor.discard f) :=
  fun s hs => wp_discard.mpr (h s hs)

theorem forM {as : List α} {f : α → P n PUnit} (each : ∀ a, KeepsStacks (f a)) :
    KeepsStacks (as.forM f) := by
  induction as with
  | nil => exact KeepsStacks.pure _
  | cons a as ih => exact KeepsStacks.bind (each a) fun _ => ih

end KeepsStacks

/-- Only `allocthread` assigns `kstack`. -/
theorem keepsStacks : KeepsStacks (userinit k initcode : P n Unit) ∧
    ∀ l : Label n, l.isThreadCreate = false → KeepsStacks (l.run k) := by
  refine ⟨?_, fun l single => ?_⟩
  on_goal 2 => cases l <;> cases single
  all_goals simp only [Label.run, userinit, Proc.fork, allocproc, freeproc, copyTrapframe,
    setTrapframe, filedup, sysExec, exec, growproc, sysPipe, pipealloc, filealloc, fdalloc, fileclose,
    pipeclose, sysClose, Proc.exit, Proc.wait, Proc.threadJoin, uservec, userStore, State.setOfile]
  repeat' with_reducible first
    | exact .pure _
    | exact .throw _
    | exact .onMem _
    | refine .discard ?_
    | refine .get fun s h => ?_
    | refine .bind ?_ fun _ => ?_
    | refine .forM fun _ => ?_
    | refine .set ?_
    | refine .modify fun s h => ?_
    | split
  all_goals repeat first
    | exact h
    | refine OwnStacks.setImage ?_ rfl

/-- Without `thread_create` every entry keeps the kernel stack that `procinit` gave it, and no page
that was allocated at boot becomes free; `proc_mapstacks` has mapped each stack to such a page. -/
theorem stacks_kept [NeZero n] (start : Holds k m boot)
    (init : userinit k initcode (Proc.start m : State n) = .ok ((), s₀))
    (run : Reach (step k) (fun _ l => l.isThreadCreate = false) s₀ s) :
    (∀ p, (s.image p).kstack = kstackVa p) ∧
    (∀ p < nproc, ∀ q < nproc, kstackVa p ≠ 0 ∧ (kstackVa p = kstackVa q → p = q)) ∧
    (∀ x ∈ boot, x ∉ s.mem.freelist) ∧
    ∀ m₀ R kpgtbl f, n ≤ nproc → Vm.Table k m₀ R kpgtbl f →
      procMapstacks n kpgtbl m₀ = .ok ((), m) → StacksMapped boot m kpgtbl n := by
  have ⟨first, calls⟩ := @keepsStacks n k initcode
  refine ⟨?_, by decide +kernel, fun x hx free => ?_,
    fun _ _ _ _ few table mapped => stacksMapped start few table mapped⟩
  · refine run.invariant (I := OwnStacks) ?_ fun s l s' h single taken => ?_
    · exact (wp_ok init).mp (first (Proc.start m) fun _ => rfl)
    · exact of_step taken (calls l single s h)
  · obtain ⟨boot', more, I₀⟩ : ∃ boot', (boot' = boot ∨ ∃ x, boot' = x ::ₘ boot) ∧
      Inv k boot' False True s₀ := Inv.of_userinit start init
    have old : x ∈ boot' := by
      rcases more with rfl | ⟨y, rfl⟩
      · exact hx
      · exact mem_cons_of_mem hx
    refine disjoint_left.mp (nodup_add.mp (I₀.run_single run).conserved.nodup).2.2
      (mem_coe.mpr free) ?_
    simp only [mem_add, old, true_or]

/-- Twice as many pages; the lowest one is an empty page table. -/
def thirtyTwoPages : Symbols :=
  { sixteenPages with
    end_ := 0x87FE0000
    trampoline_lt := by decide
    end_le := by decide }

def thirtyTwoPages.mem : Mem :=
  after (procMapstacks 2 0x87FE0000) ⟨fun _ _ => 0, thirtyTwoPages.pages.tail, false⟩

def thirtyTwoPages.first : State 2 := after (userinit thirtyTwoPages [0x13]) (start thirtyTwoPages.mem)

theorem stacks_kept_forked : ∃ (s : State 2) (boot : Multiset Addr), (s.proc 1).state = .runnable ∧
    (s.image 1).kstack = kstackVa 1 ∧ StacksMapped boot thirtyTwoPages.mem 0x87FE0000 2 ∧
    ∀ x ∈ boot, x ∉ s.mem.freelist := by
  obtain ⟨s, run, state⟩ : ∃ s, Reach (step thirtyTwoPages) (fun _ l => l.isThreadCreate = false)
      thirtyTwoPages.first s ∧ (s.proc 1).state = .runnable :=
    exists_reach_of_exec (fun s l h => by simpa using h) [.pick 0, .fork 0]
      (show (Transition.exec (step thirtyTwoPages) (fun _ l => !l.isThreadCreate) _
        thirtyTwoPages.first).any _ = true by decide +kernel)
  have table : Vm.Table thirtyTwoPages ⟨fun _ _ => 0, thirtyTwoPages.pages.tail, false⟩ 0 0x87FE0000
      fun _ => none := .blank rfl ⟨by decide +kernel, rfl⟩
  have mapped : procMapstacks 2 0x87FE0000 ⟨fun _ _ => 0, thirtyTwoPages.pages.tail, false⟩ =
      .ok ((), thirtyTwoPages.mem) := after_eq (by decide +kernel)
  obtain ⟨pas, f, t, -⟩ := (wp_ok mapped).mp (wp_mapstacks table (by decide))
  obtain ⟨own, -, kept, maps⟩ := stacks_kept t.holds (after_eq (by decide +kernel)) run
  exact ⟨s, _, state, own 1, maps _ _ _ _ (by decide) table mapped, kept⟩

/-- `thread_create` finds no page for a stack, and a process that `fork` makes in the entry has no
stack at all. -/
theorem stack_lost : ∃ s : State 2,
    Reach (step sixteenPages) (fun _ _ => True) sixteenPages.first s ∧
    (s.proc 1).state = .runnable ∧ (s.image 1).kstack = 0 :=
  exists_reach (step sixteenPages) (fun _ _ => True) sixteenPages.first
    [.pick 0, .sbrk 0 36864, .threadCreate 0 5 6 4096, .sbrk 0 (-36864), .fork 0] (by decide +kernel)

end Stacks

section Sizes

theorem Inv.run_fixed [NeZero n] (start : Holds k m boot)
    (init : userinit k initcode (Proc.start m : State n) = .ok ((), s₀)) (mapped : FirstMapped s₀)
    (run : Reach (Proc.step k) (fun s l => Safe s l ∧ Fixed s l) s₀ s) : Inv k boot True False s :=
  run.invariant (Inv.of_userinit_mapped start init mapped) fun _ _ _ I ok taken =>
    I.step taken ok.1 (fun _ => ok.2) nofun

/-- As long as a shared page table is neither freed nor resized, those that share it agree on its
size, its user pages are those of the size, and the only panics are those of `loadseg` and of an
exit of the first process. -/
theorem sharers_agree [NeZero n] (start : Holds k m boot)
    (init : userinit k initcode (Proc.start m : State n) = .ok ((), s₀)) (mapped : FirstMapped s₀)
    (run : Reach (step k) (fun s l => Safe s l ∧ Fixed s l) s₀ s) :
    (∀ p q r, (s.image p).pagetable = some r → (s.image q).pagetable = some r →
      (s.image p).sz = (s.image q).sz) ∧
    (∀ p r, (s.image p).pagetable = some r →
      ∀ v < trapframePn, mapOf s.mem.word r v ≠ none ↔ v < pageCount (s.image p).sz) ∧
    ∀ l e, (s.proc l.proc).state = l.before → Safe s l → Fixed s l → l.run k s = .error e →
      e = .loadseg ∨ e = .initExiting := by
  have I := Inv.run_fixed start init mapped run
  refine ⟨fun p q r at_ at' => ?_, fun p r at_ => ((I.placed p).seat r at_).covers trivial,
    fun l e before safe fixed stop => ?_⟩
  · exact ((I.placed q).seat r at').agree trivial p at_
  · have spec := I.wp_step before safe (fun _ => fixed) nofun
    rw [wp_error stop] at spec
    exact spec trivial

theorem sharers_agree_thread : ∃ s : State 2, (s.proc 1).state = .runnable ∧
    s.pagetable 1 = s.pagetable 0 ∧ (s.image 0).sz = (s.image 1).sz := by
  obtain ⟨s, run, state, root, same⟩ : ∃ s, Reach (step sixteenPages)
      (fun s l => Safe s l ∧ Fixed s l) sixteenPages.first s ∧ (s.proc 1).state = .runnable ∧
      (s.image 0).pagetable = some (s.pagetable 0) ∧
      (s.image 1).pagetable = some (s.pagetable 0) :=
    exists_reach_of_exec (fun s l h => by cases l <;> exact ⟨by trivial, by trivial⟩)
      [.pick 0, .threadCreate 0 5 6 4096]
      (show (Transition.exec (step sixteenPages) (fun _ l => match l with
        | .pick _ | .threadCreate .. => true
        | _ => false) _ sixteenPages.first).any _ = true by decide +kernel)
  refine ⟨s, state, pagetable_eq same, ?_⟩
  exact (sharers_agree sixteenPages.holds sixteenPages.userinit_eq (by decide +kernel) run).1 0 1 _
    root same

/-- A process grows the memory that it shares with its thread, and `sbrk` of both then stops the
kernel. -/
theorem sharers_disagree : ∃ s : State 2,
    Reach (step sixteenPages) (fun _ _ => True) sixteenPages.first s ∧
    s.pagetable 1 = s.pagetable 0 ∧ (s.proc 0).state = .running ∧ (s.proc 1).state = .running ∧
    (s.image 0).sz = 8192 ∧ (s.image 1).sz = 0 ∧
    (match (Label.sbrk 0 (-8192)).run sixteenPages s with
      | .error .uvmunmapNotMapped => true
      | _ => false) = true :=
  exists_reach (step sixteenPages) (fun _ _ => True) sixteenPages.first
    [.pick 0, .threadCreate 0 5 6 4096, .sbrk 0 4096, .pick 1, .sbrk 1 (-4096)] (by decide +kernel)

/-- As long as a shared page table is neither freed nor resized and the sum is not negative,
`growproc` does not panic. It fails with size and mappings as they were, or the new size is the sum
with its user pages mapped; pages of both sizes keep their contents, and the others are zero. -/
theorem growproc_exact [NeZero n] {i : Int32} (start : Holds k m boot)
    (init : userinit k initcode (Proc.start m : State n) = .ok ((), s₀)) (mapped : FirstMapped s₀)
    (run : Reach (step k) (fun s l => Safe s l ∧ Fixed s l) s₀ s)
    (at_ : (s.image p).pagetable = some r) (nonneg : 0 ≤ (s.image p).sz.toNat + i.toInt) :
    wp (growproc k p i) (fun _ => False) (fun b s' =>
      (b = false → (s'.image p).sz = (s.image p).sz ∧ mapOf s'.mem.word r = mapOf s.mem.word r) ∧
      (b = true → ((s'.image p).sz.toNat : Int) = (s.image p).sz.toNat + i.toInt) ∧
      (∀ v < trapframePn, mapOf s'.mem.word r v ≠ none ↔ v < pageCount (s'.image p).sz) ∧
      (∀ v e, v < pageCount (s.image p).sz → v < pageCount (s'.image p).sz →
        mapOf s.mem.word r v = some e →
        mapOf s'.mem.word r v = some e ∧ s'.mem.word (pte2pa e) = s.mem.word (pte2pa e)) ∧
      ∀ v e, pageCount (s.image p).sz ≤ v → v < pageCount (s'.image p).sz →
        mapOf s'.mem.word r v = some e → s'.mem.word (pte2pa e) = fun _ => 0) s := by
  have I := Inv.run_fixed start init mapped run
  obtain ⟨lost, -, o⟩ := I.own
  have seat := (I.placed p).seat r at_
  obtain ⟨q, tf, -, -, top⟩ := seat.top
  refine wp_growproc o at_ top seat.small (.inl (seat.covers trivial))
    fun b sz' m' _ resized sized => ?_
  have size : (((s.setImage p { s.image p with sz := sz' }).setMem m').image p).sz = sz' :=
    congrArg Image.sz setImage_self
  rw [size]
  exact ⟨sized.fails, fun ok => sized.size ok nonneg, resized.covers (seat.covers trivial),
    sized.kept, sized.fresh⟩

theorem growproc_exact_page : ∃ s s' : State 2, (s.image 0).sz = 4096 ∧
    growproc sixteenPages 0 4096 s = .ok (true, s') ∧ ((s'.image 0).sz.toNat : Int) = 8192 := by
  obtain ⟨s, run, at_, size, ok⟩ : ∃ s : State 2, Reach (step sixteenPages)
      (fun s l => Safe s l ∧ Fixed s l) sixteenPages.first s ∧
      (s.image 0).pagetable = some (s.pagetable 0) ∧ (s.image 0).sz = 4096 ∧
      (match growproc sixteenPages 0 4096 s with
        | .ok (b, _) => b
        | .error _ => false) = true :=
    ⟨sixteenPages.first, .start, by decide +kernel, by decide +kernel, by decide +kernel⟩
  have sum : ((s.image 0).sz.toNat : Int) + (4096 : Int32).toInt = 8192 := by
    rw [size]
    decide
  obtain ⟨b, s', call, done⟩ := (growproc_exact (i := 4096) sixteenPages.holds
    sixteenPages.userinit_eq (by decide +kernel) run at_ (by omega)).exists_ok
  rw [call] at ok
  obtain rfl : b = true := ok
  exact ⟨s, s', size, call, (done.2.1 rfl).trans sum⟩

/-- `sbrk(-8192)` with one page: the size is as before, and the call succeeds. -/
theorem growproc_below_zero : ∃ s : State 2,
    Reach (step sixteenPages) (fun s l => Safe s l ∧ Fixed s l) sixteenPages.first s ∧
    (s.image 0).sz = 4096 ∧
    (match growproc sixteenPages 0 (-8192) s with
      | .ok (b, s') => b && (s'.image 0).sz == 4096
      | .error _ => false) = true :=
  ⟨sixteenPages.first, .start, by decide +kernel, by decide +kernel⟩

end Sizes

end Xv6.Proc
