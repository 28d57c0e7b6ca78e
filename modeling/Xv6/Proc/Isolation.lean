import Xv6.Proc.Calls
import Xv6.Vm.Copies

/-! `fork` and the memory of the parent and of the child: neither sees what the other does to its
own. -/

namespace Xv6.Proc

open Kernel Vm Wp Transition

variable {n : Nat} {k : Symbols} {s s' : State n} {p q np : Fin n} {boot : Multiset Addr}
  {r tf : Addr} {tight lone : Prop} {va : UInt64}

/-- What the program of `p` finds at `va`: the flags of the page and the byte, if the page is one
that the user may use. -/
def State.view (s : State n) (p : Fin n) (va : UInt64) : Option (UInt64 × UInt8) :=
  (mapOf s.mem.word (s.pagetable p) (va.toNat / 4096)).bind fun e =>
    if e &&& pteU ≠ 0 then
      some (pteFlags e, pageByte (s.mem.word (pte2pa e)) (va.toNat % 4096))
    else none

/-- Every page is free or has one owner, and each process has an address space with its trapframe at
the top. -/
def Sound (k : Symbols) (s : State n) : Prop := ∃ boot, Inv k boot False False s

theorem Sound.step (h : Sound k s) (taken : step k l s = some s') (safe : Safe s l) :
    Sound k s' := by
  obtain ⟨boot, I⟩ := h
  exact ⟨boot, I.step taken safe nofun nofun⟩

theorem Inv.view_eq (I : Inv k boot tight lone s) (at_ : (s.image p).pagetable = some r)
    (at' : (s'.image p).pagetable = some r) (kept : Kept (spacePages s.mem.word r) s.mem s'.mem) :
    s'.view p = s.view p := by
  obtain ⟨lost, -, o⟩ := I.own
  obtain ⟨-, tf, -, -, top⟩ := ((I.placed p).seat r at_).top
  funext va
  rw [State.view, State.view, pagetable_eq at_, pagetable_eq at', kept.mapOf_eq]
  cases he : mapOf s.mem.word r (va.toNat / 4096) with
  | none => rfl
  | some e =>
    rw [Option.bind_some, Option.bind_some]
    split
    next user =>
      have low := top.user_lt (o.focus (roots_mem at_)) he user
      rw [kept (pte2pa e) (Multiset.mem_add.mpr (.inl (Map.mem_user low he)))]
    next => rfl

theorem Inv.view_beside (I : Inv k boot tight lone s) (beside : Beside r s s')
    (at_ : (s.image q).pagetable = some x) (ne : x ≠ r) : s'.view q = s.view q := by
  refine I.view_eq at_ ((beside.pagetable q).trans at_) (beside.kept.space ?_)
  exact Finset.mem_erase.mpr ⟨ne, roots_mem at_⟩

theorem view_copied (c : Copied m f h v) (off : Nat) : ((h v).bind fun e => if e &&& pteU ≠ 0 then
      some (pteFlags e, pageByte (m.word (pte2pa e)) off) else none) =
    (f v).bind fun e => if e &&& pteU ≠ 0 then
      some (pteFlags e, pageByte (m.word (pte2pa e)) off) else none := by
  obtain ⟨e, e', he, he', flags, words⟩ := c
  have bit : e &&& pteU = pteFlags e &&& pteU := and_flags (by decide)
  have bit' : e' &&& pteU = pteFlags e' &&& pteU := and_flags (by decide)
  rw [he, he', Option.bind_some, Option.bind_some, bit, bit', flags, words]

theorem Inv.view_child (I : Inv k boot tight lone s) (forked : Forked s s' p np)
    (low : va < (s.image p).sz) : s'.view np va = s.view p va := by
  obtain ⟨r, pt, at_, at', out, copied⟩ := forked.table
  have ne : p ≠ np := by
    rintro rfl
    have bare := ((I.placed p).blank forked.unused).pagetable
    rw [bare] at at_
    cases at_
  have stays : s'.view p = s.view p := by
    refine I.view_eq at_ ?_ (forked.kept.space (roots_mem at_))
    rw [forked.others p ne, at_]
  have map : mapOf s'.mem.word r = mapOf s.mem.word r :=
    (forked.kept.space (roots_mem at_)).mapOf_eq
  have page : va.toNat / 4096 < pageCount (s.image p).sz := by
    have := UInt64.lt_iff_toNat_lt.mp low
    rw [pageCount]
    omega
  rw [← stays, State.view, State.view, pagetable_eq at', pagetable_eq (r := r)
    (by rw [forked.others p ne, at_]), map]
  exact view_copied (copied _ page) _

/-- The steps of a pair of processes that store to their memory and resize it. -/
def Private (p np : Fin n) : Label n → Prop
  | .pick q | .yield q | .store q _ _ | .sbrk q _ => q = p ∨ q = np
  | _ => False

/-- The two processes have address spaces of their own. -/
def Parted (k : Symbols) (p np : Fin n) (s : State n) : Prop :=
  Sound k s ∧ ∃ r pt, r ≠ pt ∧ (s.image p).pagetable = some r ∧ (s.image np).pagetable = some pt

/-- A step of one of the two leaves them parted, and what the other sees stays the same. -/
theorem Parted.step (h : Parted k p np s) (mine : Private p np l)
    (taken : step k l s = some s') : Parted k p np s' ∧
      ∀ a b, a = p ∧ b = np ∨ a = np ∧ b = p → l.proc = a → s'.view b = s.view b := by
  obtain ⟨⟨boot, I⟩, r, pt, ne, at_, at'⟩ := h
  have alive : (s.proc l.proc).state.alive = true := by
    rw [step_before taken]
    exact before_alive l
  obtain ⟨x, -, at_x, -⟩ := (I.placed l.proc).busy (by
    intro unused
    rw [unused] at alive
    cases alive)
  -- the step stays in the address space `x` of the process that takes it
  have done : wp (l.run k) (fun _ => True) (fun _ s' => Beside x s s') s → Safe s l →
      Parted k p np s' ∧
        ∀ a b, a = p ∧ b = np ∨ a = np ∧ b = p → l.proc = a → s'.view b = s.view b := by
    intro spec safe
    have beside : Beside x s s' := of_step taken spec
    refine ⟨⟨⟨boot, I.step taken safe nofun nofun⟩, r, pt, ne, (beside.pagetable p).trans at_,
      (beside.pagetable np).trans at'⟩, ?_⟩
    rintro a b (⟨rfl, rfl⟩ | ⟨rfl, rfl⟩) who
    · rw [who, at_, Option.some.injEq] at at_x
      exact I.view_beside beside at' (at_x ▸ ne.symm)
    · rw [who, at', Option.some.injEq] at at_x
      exact I.view_beside beside at_ (at_x ▸ ne)
  cases l with
  | pick | yield => exact done ⟨fun _ => rfl, .refl⟩ trivial
  | store q va b =>
    exact done ((I.wp_userStore at_x alive).mono (fun _ _ h => h.2) fun _ => id) trivial
  | sbrk q i =>
    have spec := I.wp_growproc (E := fun _ => True) (i := i) at_x alive nofun (.inr fun _ => trivial)
    exact done (wp_discard.mpr (spec.mono (fun _ _ h => h.2) fun _ => id)) trivial
  | _ => exact mine.elim

theorem Parted.run (h : Parted k p np s)
    (run : Reach (Proc.step k) (fun _ => Private p np) s s₁) : Parted k p np s₁ :=
  run.invariant h fun _ _ _ h mine taken => (h.step mine taken).1

/-- Right after a `fork` that succeeds the child sees what its parent saw below the size, and the
parent what it saw before; from then on a store or an `sbrk` of one leaves what the other sees. A
`fork` that fails leaves the caller's memory and mappings. -/
theorem fork_isolates (sound : Sound k s) (running : (s.proc p).state = .running)
    {res : Option UInt32} (call : fork k p s = .ok (res, s')) :
    s'.view p = s.view p ∧ (s'.image p) = s.image p ∧
    mapOf s'.mem.word (s.pagetable p) = mapOf s.mem.word (s.pagetable p) ∧
    (res.isSome → ∃ np, (s.proc np).state = .unused ∧ (s'.proc np).parent = some p ∧
      (s'.image np).sz = (s.image p).sz ∧
      (∀ va, va < (s.image p).sz → s'.view np va = s.view p va) ∧
      ∀ s₁ l s₂, Reach (Proc.step k) (fun _ => Private p np) s' s₁ → Private p np l →
        Proc.step k l s₁ = some s₂ →
        (l.proc = p → s₂.view np = s₁.view np) ∧ (l.proc = np → s₂.view p = s₁.view p)) := by
  obtain ⟨boot, I⟩ := sound
  have alive : (s.proc p).state.alive = true := by rw [running]; rfl
  obtain ⟨r, tf, at_, -⟩ := (I.placed p).busy (by rw [running]; nofun)
  have mem := roots_mem at_
  have spec := I.wp_fork (E := fun _ => True) (Q := fun res s' => Sound k s' ∧
    (res = none ∧ Unforked s s' ∨ ∃ np, Forked s s' p np)) at_ alive (.inr fun _ => trivial)
    (fun s' I' un => ⟨⟨boot, I'⟩, .inl ⟨rfl, un⟩⟩)
    fun np pid s' I' forked => ⟨⟨boot, I'⟩, .inr ⟨np, forked⟩⟩
  rw [wp_ok call] at spec
  obtain ⟨sound', ⟨rfl, un⟩ | ⟨np, forked⟩⟩ := spec
  · have kept := un.kept.space mem
    refine ⟨I.view_eq at_ (by rw [un.image, at_]) kept, by rw [un.image], ?_, nofun⟩
    rw [pagetable_eq at_, kept.mapOf_eq]
  · have ne : p ≠ np := by
      rintro rfl
      rw [running] at alive
      exact absurd (running.symm.trans forked.unused) nofun
    have kept := forked.kept.space mem
    have same := forked.others p ne
    obtain ⟨r', pt, hr', at', out, -⟩ := forked.table
    have parted : Parted k p np s' := by
      refine ⟨sound', r, pt, ?_, by rw [same, at_], at'⟩
      rintro rfl
      exact out mem
    refine ⟨I.view_eq at_ (by rw [same, at_]) kept, same, ?_, fun _ => ⟨np, forked.unused,
      forked.parent, forked.sz, fun va low => I.view_child forked low, ?_⟩⟩
    · rw [pagetable_eq at_, kept.mapOf_eq]
    · intro s₁ l s₂ run mine taken
      obtain ⟨-, views⟩ := (parted.run run).step mine taken
      exact ⟨views p np (.inl ⟨rfl, rfl⟩), views np p (.inr ⟨rfl, rfl⟩)⟩

def Label.isPick : Label n → Bool
  | .pick _ => true
  | _ => false

theorem fork_isolates_first : ∃ (s s' : State 2) (np : Fin 2), (s.proc 0).state = .running ∧
    (s.image 0).sz = pgsize ∧ (s.proc np).state = .unused ∧
    (∀ va, va < pgsize → s'.view np va = s.view 0 va) ∧
    ∀ s₁ b s₂, Reach (Proc.step sixteenPages) (fun _ => Private 0 np) s' s₁ →
      Proc.step sixteenPages (.store 0 0 b) s₁ = some s₂ → s₂.view np = s₁.view np := by
  obtain ⟨boot, -, I⟩ : ∃ boot, (boot = 0 ∨ ∃ x, boot = x ::ₘ 0) ∧
      Inv sixteenPages boot False False sixteenPages.first :=
    Inv.of_userinit sixteenPages.holds sixteenPages.userinit_eq
  obtain ⟨s, run, running, size, call⟩ : ∃ s, Reach (Proc.step sixteenPages) Safe
      sixteenPages.first s ∧ (s.proc 0).state = .running ∧ (s.image 0).sz = pgsize ∧
      (fork sixteenPages 0 s).toOption.any (·.1.isSome) = true :=
    exists_reach_of_exec (fun s l h => by cases l <;> trivial) [.pick 0]
      (show (Transition.exec (Proc.step sixteenPages) (fun _ => Label.isPick) _
        sixteenPages.first).any _ = true by decide +kernel)
  have sound : Sound sixteenPages s :=
    run.invariant ⟨boot, I⟩ fun _ _ _ sound safe taken => sound.step taken safe
  cases eq : fork sixteenPages 0 s with
  | error =>
    rw [eq] at call
    cases call
  | ok r =>
    rw [eq] at call
    obtain ⟨pid, s'⟩ := r
    obtain ⟨pid, rfl⟩ := Option.isSome_iff_exists.mp (show pid.isSome = true from call)
    obtain ⟨-, -, -, child⟩ := fork_isolates sound running eq
    obtain ⟨np, unused, -, -, same, apart⟩ := child rfl
    refine ⟨s, s', np, running, size, unused, fun va low => same va (size ▸ low), ?_⟩
    exact fun s₁ b s₂ run taken => (apart s₁ (.store 0 0 b) s₂ run (.inl rfl) taken).1 rfl

end Xv6.Proc
