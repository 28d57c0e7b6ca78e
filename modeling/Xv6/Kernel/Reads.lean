import Xv6.Kernel.Console
import Xv6.Kernel.Pipe

/-! The bytes that `piperead` and `consoleread` take. Both advance their index before the copy, so
that a byte whose copy fails is gone; `consoleread` also takes the Ctrl-D that ends a read, and
returns -1 when killed after it has delivered bytes. -/

namespace Xv6.Kernel

open Function Option

open Transition (exists_reach)

variable {n : Nat}

namespace Call

def isRead : Call → Bool
  | piperead .. | consoleread .. => true
  | _ => false

def count : Call → UInt32
  | piperead _ _ (some i) => UInt32.ofNat i
  | consoleread target k => UInt32.ofInt (target - k)
  | _ => 0

end Call

/-- How many bytes a call has delivered after a pass, and at last what it returns. -/
def Next.count : Next → UInt32
  | again c | sleep c => c.count
  | ret (.val v) => v
  | ret _ => 0

namespace State

variable {s s' : State n} {p : Fin n} {c : Call} {io : Copies} {next : Next}

/-- How far a pass of the call moves `nread` or `cons.r`. -/
def removes (s s' : State n) : Call → UInt32
  | .piperead pi _ _ => (s'.pipe pi).nread - (s.pipe pi).nread
  | .consoleread _ _ => s'.cons.r - s.cons.r
  | _ => 0

/-- How many bytes a pass of the call copies to user space. -/
def copies (s : State n) (io : Copies) : Call → UInt32
  | .piperead pi k (some i) =>
    if (i : Int) < k ∧ (s.pipe pi).nread ≠ (s.pipe pi).nwrite ∧ io.copyout then 1 else 0
  | .consoleread _ k =>
    if 0 < k ∧ s.cons.r ≠ s.cons.w ∧ s.cons.buf (Console.slot s.cons.r) ≠ Console.ctrlD ∧
      io.copyout then 1 else 0
  | _ => 0

/-- The byte that the pass takes is copied. The pass does not take a Ctrl-D at the start of a read of
the console, and does not find the reader killed at a wait after some bytes. -/
def Delivers (s : State n) (p : Fin n) (io : Copies) : Call → Prop
  | .piperead pi k (some i) => (i : Int) < k → (s.pipe pi).nread ≠ (s.pipe pi).nwrite →
      io.copyout = true
  | .consoleread target k => 0 < k →
      if s.cons.r = s.cons.w then s.killed p = true → (Call.consoleread target k).count = 0
      else if s.cons.buf (Console.slot s.cons.r) = Console.ctrlD then k < target
      else io.copyout = true
  | _ => True

/-- A pass of the call `c`, which has delivered as many bytes as it counts, brings it to `count`. -/
structure Counts (s s' : State n) (io : Copies) (c : Call) (count : UInt32) : Prop where
  removed : c.count + s.removes s' c = count
  copied : c.count + s.copies io c = count

theorem Counts.none (still : s.removes s' c = 0) (copies : s.copies io c = 0) :
    Counts s s' io c c.count := by
  refine ⟨?_, ?_⟩
  · rw [still, UInt32.add_zero]
  · rw [copies, UInt32.add_zero]

theorem Counts.one {count r : UInt32} (moved : s.removes s' c = r + 1 - r)
    (copies : s.copies io c = 1) (succ : c.count + 1 = count) : Counts s s' io c count := by
  refine ⟨?_, ?_⟩
  · rw [moved, UInt32.add_comm r, UInt32.add_sub_cancel, succ]
  · rw [copies, succ]

/-- The pass of a read counts what it takes if and only if it delivers it, and does if it does not
return. -/
structure Exact (s s' : State n) (p : Fin n) (io : Copies) (c : Call) (next : Next) : Prop where
  counts_iff : Counts s s' io c next.count ↔ s.Delivers p io c
  goes : (∀ r, next ≠ .ret r) → s.Delivers p io c

theorem Exact.right (counts : Counts s s' io c next.count) (ok : s.Delivers p io c) :
    Exact s s' p io c next := ⟨iff_of_true counts ok, fun _ => ok⟩

/-- The byte is removed and not counted. -/
theorem Exact.lost {res : Ret} {r : UInt32} (moved : s.removes s' c = r + 1 - r)
    (count : (Next.ret res).count = c.count) (not : ¬s.Delivers p io c) :
    Exact s s' p io c (.ret res) := by
  refine ⟨iff_of_false (fun h => ?_) not, fun goes => (goes res rfl).elim⟩
  have same := h.removed
  rw [moved, count, UInt32.add_comm r, UInt32.add_sub_cancel] at same
  exact absurd (add_eq_left.mp same) (by decide)

theorem pipereadCopy_exact (pi i : Nat) (k : Int) :
    Exact s (s.pipereadCopy p pi k i io).1 p io (.piperead pi k (some i))
      (s.pipereadCopy p pi k i io).2 := by
  unfold pipereadCopy
  split
  next more =>
    have moved (q : Pipe) : q.nread = (s.pipe pi).nread + 1 →
        s.removes (s.setPipe pi q) (.piperead pi k (some i)) =
          (s.pipe pi).nread + 1 - (s.pipe pi).nread := by
      intro read
      show (update s.pipe pi q pi).nread - _ = _
      rw [update_self, read]
    dsimp only
    split
    next copyout =>
      have copied : s.copies io (.piperead pi k (some i)) = 1 := if_pos ⟨more.1, more.2, copyout⟩
      exact .right (.one (moved _ rfl) copied (UInt32.ofNat_add i 1).symm) fun _ _ => copyout
    next fails => exact .lost (moved _ rfl) rfl fun ok => fails (ok more.1 more.2)
  next stop =>
    exact .right (.none (UInt32.sub_self ..) (if_neg fun h => stop ⟨h.1, h.2.1⟩))
      fun lt some => (stop ⟨lt, some⟩).elim

theorem consolereadPass_exact (target k : Int) :
    Exact s (s.consolereadPass p target k io).1 p io (.consoleread target k)
      (s.consolereadPass p target k io).2 := by
  unfold consolereadPass
  dsimp only
  split
  next pos =>
    have delivers : s.Delivers p io (.consoleread target k) ↔ _ := forall_prop_of_true pos
    split
    next empty =>
      rw [if_pos empty] at delivers
      have idle : Counts s s io (.consoleread target k) (Call.consoleread target k).count :=
        .none (UInt32.sub_self ..) (if_neg fun h => h.2.1 empty)
      split
      next dead =>
        refine ⟨?_, fun goes => (goes _ rfl).elim⟩
        rw [delivers, forall_prop_of_true dead]
        refine ⟨fun h => idle.removed.symm.trans h.removed, fun zero => ?_⟩
        rwa [zero] at idle
      next alive => exact .right idle (delivers.mpr fun dead => (alive dead).elim)
    next some =>
      rw [if_neg some] at delivers
      split
      next eof =>
        rw [if_pos eof] at delivers
        split
        next more =>
          exact .right (.none (UInt32.sub_self ..) (if_neg fun h => h.2.2.1 eof)) (delivers.mpr more)
        next first => exact .lost rfl rfl (mt delivers.mp first)
      next byte =>
        rw [if_neg byte] at delivers
        split
        next fails => exact .lost rfl rfl (mt delivers.mp fails)
        next copies =>
          have copyout := Classical.not_not.mp copies
          have copied : s.copies io (.consoleread target k) = 1 := if_pos ⟨pos, some, byte, copyout⟩
          have succ : (Call.consoleread target k).count + 1 = UInt32.ofInt (target - (k - 1)) := by
            rw [show target - (k - 1) = target - k + 1 by omega, UInt32.ofInt_add]
            rfl
          split
          · exact .right (.one rfl copied succ) (delivers.mpr copyout)
          · exact .right (.one rfl copied succ) (delivers.mpr copyout)
  next done =>
    exact .right (.none (UInt32.sub_self ..) (if_neg fun h => done h.1)) fun pos => (done pos).elim

theorem pass_exact (eq : s.pass p io c = (s', next)) (read : ∀ r, next = .ret r → c.isRead = true) :
    Exact s s' p io c next := by
  have frame := pass_frame eq
  have other : c.isRead = false → s.Delivers p io c → Exact s s' p io c next := by
    intro no ok
    have zero : next.count = 0 := by
      cases next with
      | ret r =>
        rw [read r rfl] at no
        cases no
      | sleep c' =>
        obtain rfl := (frame.sleep c' rfl).1
        cases c' <;> first | rfl | cases no
      | again c' =>
        obtain ⟨lk, pipeEnd⟩ := frame.again c' rfl
        cases c <;> cases c' <;>
          simp_all [Call.isRead, Call.lk, Call.pipeEnd, Next.count, Call.count]
    refine .right ?_ ok
    rw [zero]
    cases c <;> first | exact ⟨rfl, rfl⟩ | cases no
  cases c with
  | wait | sleep | pipewrite => exact other rfl trivial
  | piperead pi k i =>
    cases i with
    | some i =>
      have exact_ : Exact s _ p io _ _ := pipereadCopy_exact pi i k
      rwa [show s.pipereadCopy p pi k i io = _ from eq] at exact_
    | none =>
      have idle : Counts s s io (.piperead pi k none) 0 := .none (UInt32.sub_self ..) rfl
      simp only [pass, pipereadWait] at eq
      repeat' split at eq
      all_goals
        cases eq
        exact .right idle trivial
  | consoleread target k =>
    have exact_ : Exact s _ p io _ _ := consolereadPass_exact target k
    rwa [show s.consolereadPass p target k io = _ from eq] at exact_

end State

/-- The kernel with the bytes that the call of a process has removed from a pipe or the console, and
those that it has copied. -/
structure Transfer (n : Nat) where
  kernel : State n
  removed : Fin n → UInt32
  copied : Fin n → UInt32

namespace Transfer

variable {t t' : Transfer n} {l : Label n} {p : Fin n} {c : Call} {io : Copies}

def passing (t : Transfer n) (p : Fin n) : Label n → Option (Call × Copies)
  | .pass q io =>
    match t.kernel.pc p with
    | .loop c => if q = p then some (c, io) else none
    | _ => none
  | _ => none

def step (l : Label n) (t : Transfer n) : Option (Transfer n) :=
  (Kernel.step l t.kernel).map fun k =>
    { kernel := k
      removed := fun p => if (t.kernel.pc p).call = none then 0 else
        t.removed p + (t.passing p l).elim 0 fun c => t.kernel.removes k c.1
      copied := fun p => if (t.kernel.pc p).call = none then 0 else
        t.copied p + (t.passing p l).elim 0 fun c => t.kernel.copies c.2 c.1 }

def boot (n : Nat) [NeZero n] : Transfer n := ⟨Kernel.boot n, fun _ => 0, fun _ => 0⟩

/-- What the calls have removed and copied is what they count. -/
structure Tallied (t : Transfer n) : Prop where
  places : t.kernel.Places
  count : ∀ p c, (t.kernel.pc p).call = some c → t.removed p = c.count ∧ t.copied p = c.count

namespace Tallied

theorem pass (h : Tallied t) (at_ : t.kernel.pc p = .loop c)
    (hstep : Transfer.step (.pass p io) t = some t') : ∃ (s' : State n) (next : Next),
      t'.kernel = s'.goOn p c next ∧ ((∀ r, next = .ret r → c.isRead = true) →
        (t'.removed p = next.count ∧ t'.copied p = next.count ↔ t.kernel.Delivers p io c) ∧
        ((∀ r, next ≠ .ret r) → t'.removed p = next.count ∧ t'.copied p = next.count)) := by
  have call : (t.kernel.pc p).call = some c := by rw [at_]; rfl
  have passing : t.passing p (.pass p io) = some (c, io) := by
    simp only [Transfer.passing, at_, if_true]
  obtain ⟨k, hk, rfl⟩ := map_eq_some_iff.mp hstep
  obtain ⟨removed, copied⟩ := h.count p c call
  cases step_sound hk with
  | @pass _ _ c' s' next at' run eq =>
    obtain rfl : c = c' := Pc.loop.inj (at_.symm.trans at')
    refine ⟨s', next, rfl, fun read => ?_⟩
    have moved : t.kernel.removes (s'.goOn p c next) c = t.kernel.removes s' c := by
      cases next <;> cases c <;> rfl
    obtain ⟨iff, goes⟩ := State.pass_exact eq read
    dsimp only
    rw [call, if_neg (some_ne_none c), if_neg (some_ne_none c), passing, removed,
      copied, elim_some, elim_some, moved]
    have counts : _ ∧ _ ↔ State.Counts t.kernel s' io c next.count :=
      ⟨fun h => ⟨h.1, h.2⟩, fun h => ⟨h.removed, h.copied⟩⟩
    exact ⟨counts.trans iff, fun h => counts.mpr (iff.mpr (goes h))⟩

theorem step (h : Tallied t) (hstep : Transfer.step l t = some t') :
    Tallied t' := by
  obtain ⟨k, hk, eq⟩ := map_eq_some_iff.mp hstep
  have st : Step t.kernel l t'.kernel := by
    rw [← eq]
    exact step_sound hk
  refine ⟨h.places.step st, fun q c hq => ?_⟩
  by_cases label : ∃ io, l = .pass q io
  · obtain ⟨io, rfl⟩ := label
    obtain ⟨c0, at_⟩ : ∃ c0, t.kernel.pc q = .loop c0 := by
      cases step_sound hk with
      | pass at_ => exact ⟨_, at_⟩
    obtain ⟨s', next, after, done⟩ := h.pass at_ hstep
    have done := fun goes : ∀ r, next ≠ .ret r => (done fun r ret => (goes r ret).elim).2 goes
    rw [after] at hq
    cases next with
    | ret r =>
      rw [show (s'.goOn q c0 (.ret r)).pc q = .user r from update_self ..] at hq
      cases hq
    | again c' =>
      rw [show (s'.goOn q c0 (.again c')).pc q = .loop c' from update_self ..] at hq
      cases hq
      exact done fun _ => Next.noConfusion
    | sleep c' =>
      rw [show (s'.goOn q c0 (.sleep c')).pc q = .tested c' from update_self ..] at hq
      cases hq
      exact done fun _ => Next.noConfusion
  · have passing : t.passing q l = none := by
      unfold Transfer.passing
      split
      next p io =>
        split
        · exact if_neg fun e => label ⟨io, by rw [e]⟩
        · rfl
      · rfl
    have before : (t.kernel.pc q).call = some c ∨ (t.kernel.pc q).call = none ∧ c.count = 0 := by
      cases st.shift h.places q with
      | stays pc sleep => exact .inl (pc ▸ hq)
      | goes out free awake call =>
        rcases call c hq with ⟨starts, none⟩ | same
        · refine .inr ⟨none, ?_⟩
          cases c with
          | piperead pi k i =>
            rw [starts.2]
            rfl
          | consoleread target k =>
            rw [show target = k from starts, Call.count, sub_self]
            rfl
          | _ => rfl
        · exact .inl same
      | acquires at_ after | sleeps at_ after =>
        rw [after] at hq
        rw [at_]
        exact .inl hq
      | passes label' => exact (label ⟨_, label'⟩).elim
      | blocks at_ after chan =>
        rw [after] at hq
        cases hq
    rw [← eq]
    dsimp only
    rw [passing, elim_none, elim_none, UInt32.add_zero, UInt32.add_zero]
    rcases before with same | ⟨none, zero⟩
    · rw [same, if_neg nofun, if_neg nofun]
      exact h.count q c same
    · rw [none, if_pos rfl, if_pos rfl, zero]
      exact ⟨rfl, rfl⟩

end Tallied

/-- Until a read returns, it has removed as many bytes as it has copied and counts. When it returns,
it has removed and copied as many as it returns, and none if it returns -1, if and only if its last
pass delivers. -/
theorem read_removes_counted [NeZero n] (run : Transition.Reach step (fun _ _ => True) (boot n) t)
    (read : c.isRead = true) (at_ : t.kernel.pc p = .loop c)
    (hstep : step (.pass p io) t = some t') :
    (t.removed p = c.count ∧ t.copied p = c.count) ∧
    ∀ r, t'.kernel.pc p = .user r →
      (t'.removed p = (Next.ret r).count ∧ t'.copied p = (Next.ret r).count ↔
        t.kernel.Delivers p io c) := by
  have tallied : Tallied t := run.invariant (I := Tallied)
    ⟨⟨fun q => .of_user rfl nofun, nofun⟩, nofun⟩ fun _ _ _ h _ hstep => h.step hstep
  refine ⟨tallied.count p c (by rw [at_]; rfl), fun r hr => ?_⟩
  obtain ⟨s', next, after, done⟩ := tallied.pass at_ hstep
  rw [after] at hr
  cases next with
  | ret r' =>
    rw [show (s'.goOn p c (.ret r')).pc p = .user r' from update_self ..] at hr
    cases hr
    exact (done fun _ _ => read).1
  | again | sleep => exact nomatch (update_self ..).symm.trans hr

/-- The last pass of a read of one byte. -/
theorem read_removes_counted_byte : ∃ t t' : Transfer nproc,
    Transition.Reach step (fun _ _ => True) (boot nproc) t ∧
    step (.pass 0 ⟨none, true⟩) t = some t' ∧
    t'.kernel.pc 0 = .user (.val 1) ∧ t'.removed 0 = 1 ∧ t'.copied 0 = 1 := by
  obtain ⟨t, run, at_, after⟩ := exists_reach step (fun _ _ => True) (boot nproc)
    (writesThenReads.take 11)
    (P := fun t : Transfer nproc => t.kernel.pc 0 = .loop (.piperead 0 1 (some 1)) ∧
      (step (.pass 0 ⟨none, true⟩) t).map (·.kernel.pc 0) = some (.user (.val 1)))
    (by decide +kernel)
  obtain ⟨t', hstep, returns⟩ := map_eq_some_iff.mp after
  exact ⟨t, t', run, hstep, returns,
    ((read_removes_counted run rfl at_ hstep).2 _ returns).mpr fun _ _ => rfl⟩

/-- The copy of the first byte fails: the byte is removed, and the read returns 0. -/
theorem read_loses_byte : ∃ t : Transfer nproc,
    Transition.Reach step (fun _ _ => True) (boot nproc) t ∧ t.kernel.pc 0 = .user (.val 0) ∧
    t.removed 0 = 1 ∧ t.copied 0 = 0 ∧ (t.kernel.pipe 0).nread = 1 := by
  obtain ⟨t, run, h⟩ := exists_reach step (fun _ _ => True) (boot nproc)
    (writesThenReads.take 10 ++ [.pass 0 ⟨none, false⟩])
    (P := fun t : Transfer nproc => t.kernel.pc 0 = .user (.val 0) ∧ t.removed 0 = 1 ∧
      t.copied 0 = 0 ∧ (t.kernel.pipe 0).nread = 1) (by decide +kernel)
  exact ⟨t, run, h⟩

end Transfer

end Xv6.Kernel
