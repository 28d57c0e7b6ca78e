import Xv6.Proc.Calls

/-! Runs of processes without threads: every page of the allocator is free or has one owner, in every
state between two calls. -/

namespace Xv6.Proc

open Kernel Vm Wp Transition

variable {n : Nat} {k : Symbols} {s s₀ s₁ s₂ : State n} {m : Mem} {boot : Multiset Addr}
  {initcode : List UInt8}

namespace State

variable (s : State n)

noncomputable def userPages : Multiset Addr := ∑ r ∈ s.roots, (mapOf s.mem.word r).user

def tablePages : Multiset Addr := ∑ r ∈ s.roots, Vm.tablePages s.mem.word r

end State

/-- The pages from `end` to `PHYSTOP`, each once, are the free ones, those allocated at boot, the
trapframes, the pipes, the user pages and the page-table pages; and none was freed twice. -/
structure Conserved (k : Symbols) (boot : Multiset Addr) (s : State n) : Prop where
  part : (s.mem.freelist : Multiset Addr) +
    (boot + s.trapframes + s.pipes + s.userPages + s.tablePages) = k.pages
  nodup : ((s.mem.freelist : Multiset Addr) +
    (boot + s.trapframes + s.pipes + s.userPages + s.tablePages)).Nodup
  once : s.mem.twice = false

/-- In the two states the same entries of the table have a process, and there are as many user pages
and pipes. -/
structure SameLoad (s₁ s₂ : State n) : Prop where
  procs : ∀ p, (s₁.proc p).state = .unused ↔ (s₂.proc p).state = .unused
  user : s₁.userPages.card = s₂.userPages.card
  pipes : s₁.pipes.card = s₂.pipes.card

theorem allPages_eq (s : State n) : allPages s.mem.word s.roots = s.userPages + s.tablePages :=
  Finset.sum_add_distrib

theorem Inv.conserved (I : Inv k boot False True s) : Conserved k boot s := by
  obtain ⟨lost, none, o⟩ := I.own
  rw [none trivial, add_zero] at o
  have holds := o.holds
  rw [allPages_eq, ← add_assoc] at holds
  exact ⟨holds.part, holds.nodup, holds.once⟩

theorem Inv.card_trapframes (I : Inv k boot tight lone s) : s.trapframes.card =
    (Finset.univ.filter fun p => (s.proc p).state ≠ .unused).card := by
  rw [State.trapframes, Multiset.card_sum, Finset.card_filter]
  refine Finset.sum_congr rfl fun p _ => ?_
  split
  next busy =>
    obtain ⟨r, tf, -, frame⟩ := (I.placed p).busy busy
    rw [frame]
    rfl
  next free =>
    rw [((I.placed p).blank (not_not.mp free)).trapframe]
    rfl

theorem SameLoad.trapframes {tight lone : Prop} (same : SameLoad s₁ s₂)
    (I₁ : Inv k boot tight lone s₁) (I₂ : Inv k boot tight lone s₂) :
    s₁.trapframes.card = s₂.trapframes.card := by
  rw [I₁.card_trapframes, I₂.card_trapframes]
  congr 1
  ext p
  simp only [Finset.mem_filter, ne_eq, same.procs p]

/-- With the same processes, user pages and pipes there are as many free pages, but for the
page-table pages. -/
theorem Conserved.free_eq {tight lone : Prop} (c1 : Conserved k boot s₁) (c2 : Conserved k boot s₂)
    (same : SameLoad s₁ s₂) (I₁ : Inv k boot tight lone s₁) (I₂ : Inv k boot tight lone s₂) :
    s₁.mem.freelist.length + s₁.tablePages.card = s₂.mem.freelist.length + s₂.tablePages.card := by
  have total := congrArg Multiset.card (c1.part.trans c2.part.symm)
  simp only [Multiset.card_add, Multiset.coe_card] at total
  have := same.trapframes I₁ I₂
  have := same.user
  have := same.pipes
  omega

theorem Inv.run_single (I : Inv k boot False True s₁)
    (run : Reach (Proc.step k) (fun _ l => l.isThreadCreate = false) s₁ s₂) :
    Inv k boot False True s₂ := by
  refine run.invariant I fun s l s' I single taken => I.step taken ?_ nofun fun _ => single
  cases l with
  | exec p => exact I.unshared trivial p
  | wait | threadJoin => exact fun pp _ => I.unshared trivial pp
  | _ => trivial

/-- Without `thread_create` every state is conserved, also where `kalloc` fails; and when the
processes, user pages and pipes are as many as earlier, so are the free and the page-table pages
together. -/
theorem pages_conserved [NeZero n] (start : Holds k m boot)
    (init : userinit k initcode (Proc.start m : State n) = .ok ((), s₀)) :
    ∃ boot', (boot' = boot ∨ ∃ x, boot' = x ::ₘ boot) ∧
      ∀ s₁, Reach (step k) (fun _ l => l.isThreadCreate = false) s₀ s₁ → Conserved k boot' s₁ ∧
        ∀ s₂, Reach (step k) (fun _ l => l.isThreadCreate = false) s₁ s₂ → SameLoad s₁ s₂ →
          s₁.mem.freelist.length + s₁.tablePages.card =
            s₂.mem.freelist.length + s₂.tablePages.card := by
  obtain ⟨boot', more, I₀⟩ : ∃ boot', (boot' = boot ∨ ∃ x, boot' = x ::ₘ boot) ∧
    Inv k boot' False True s₀ := Inv.of_userinit start init
  refine ⟨boot', more, fun s₁ run₁ => ?_⟩
  have I₁ := I₀.run_single run₁
  refine ⟨I₁.conserved, fun s₂ run₂ same => ?_⟩
  have I₂ := I₁.run_single run₂
  exact I₁.conserved.free_eq I₂.conserved same I₁ I₂

theorem pages_conserved_fork : ∃ (boot : Multiset Addr) (s : State 2), (s.proc 1).state = .runnable ∧
    s.mem.freelist.length = 2 ∧ Conserved sixteenPages boot s := by
  obtain ⟨s, run, state, free⟩ : ∃ s, Reach (step sixteenPages) (fun _ l => l.isThreadCreate = false)
      sixteenPages.first s ∧ (s.proc 1).state = .runnable ∧ s.mem.freelist.length = 2 :=
    exists_reach_of_exec (fun s l h => by simpa using h) [.pick 0, .fork 0]
      (show (Transition.exec (step sixteenPages) (fun _ l => !l.isThreadCreate) _
        sixteenPages.first).any _ = true by decide +kernel)
  obtain ⟨boot, -, conserved⟩ := pages_conserved sixteenPages.holds sixteenPages.userinit_eq
  exact ⟨boot, s, state, free, (conserved s run).1⟩

end Xv6.Proc
