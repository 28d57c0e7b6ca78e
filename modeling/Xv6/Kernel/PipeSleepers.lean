import Xv6.Kernel.Places
import Xv6.Kernel.Sleepers

/-! The processes asleep on a pipe. A call that changes what they wait for wakes them before it
gives up the lock, except `pipewrite` when it finds its process killed after it has stored bytes. -/

namespace Xv6.Kernel

open Transition Function

open Table (freeproc_proc set_of_ne set_self take_proc set_proc findUnused_some)

variable {n : Nat}

namespace State

variable {s s' : State n} {l : Label n} {p q : Fin n}

/-- What a step other than a pass does to the process `q`. -/
inductive Shift (s : State n) (l : Label n) (s' : State n) (q : Fin n) : Prop
  | stays (pc : s'.pc q = s.pc q) (sleep : (s'.proc q).state = .sleeping →
      (s.proc q).state = .sleeping ∧ (s'.proc q).chan = (s.proc q).chan)
  | goes (out : (s.pc q).locked = false) (free : (s'.pc q).locked = false)
      (awake : (s'.proc q).state ≠ .sleeping)
      (call : ∀ c, (s'.pc q).call = some c →
        s.Starts c ∧ (s.pc q).call = none ∨ (s.pc q).call = some c)
  | acquires {c} (at_ : s.pc q = .enter c) (after : s'.pc q = .loop c)
      (awake : (s'.proc q).state ≠ .sleeping)
  | passes {io} (label : l = .pass q io)
  | sleeps {c} (at_ : s.pc q = .tested c) (after : s'.pc q = .asleep c)
      (chan : (s'.proc q).chan = some (c.chan q))
  | blocks {r a} (at_ : s.pc q = .user r) (after : s'.pc q = .blocked r)
      (chan : (s'.proc q).chan = some (.other a))

theorem Free.out (free : s.Free p) : (s.pc p).locked = false := by
  obtain ⟨r, hr⟩ := free.user
  rw [hr]
  rfl

theorem Free.awake (free : s.Free p) : (s.proc p).state ≠ .sleeping := by
  rw [free.1]
  nofun

theorem Free.ne_of_unused (free : s.Free p) (unused : s.table.findUnused = some np) : p ≠ np := by
  rintro rfl
  have was := findUnused_some unused
  rw [show (s.table.proc p).state = .running from free.1] at was
  cases was

namespace Shift

theorem still (pc : s'.pc = s.pc) (still : Still s.table s'.table q) : Shift s l s' q :=
  .stays (by rw [pc]) still.2

theorem setPc (h : Shift s l s' q) {pc : Pc n} (out : (s.pc p).locked = false)
    (call : pc.call = none) (awake : (s'.proc p).state ≠ .sleeping) :
    Shift s l (s'.setPc p pc) q := by
  by_cases hq : q = p
  · subst hq
    refine .goes out ?_ awake fun c hc => ?_
    · rw [setPc_self]
      cases pc <;> first | rfl | cases call
    · rw [setPc_self, call] at hc
      cases hc
  · have same : (s'.setPc p pc).pc q = s'.pc q := setPc_of_ne _ _ hq
    cases h with
    | stays pc sleep => exact .stays (same.trans pc) sleep
    | goes out free awake call =>
      exact .goes out (by rwa [same]) awake (by rwa [same])
    | acquires at_ after awake => exact .acquires at_ (same.trans after) awake
    | passes label => exact .passes label
    | sleeps at_ after chan => exact .sleeps at_ (same.trans after) chan
    | blocks at_ after chan => exact .blocks at_ (same.trans after) chan

theorem other (pc : s'.pc q = s.pc q) (entry : s'.proc q = s.proc q) : Shift s l s' q :=
  .stays pc fun hs => by
    rw [entry] at hs ⊢
    exact ⟨hs, rfl⟩

theorem replace (np : Fin n) (pc : s'.pc = s.pc) (awake : (s'.proc np).state ≠ .sleeping)
    (others : ∀ q, q ≠ np → s'.proc q = s.proc q) : Shift s l s' q := by
  refine .stays (by rw [pc]) fun hs => ?_
  by_cases hq : q = np
  · subst hq
    exact (awake hs).elim
  · rw [others q hq] at hs ⊢
    exact ⟨hs, rfl⟩

theorem fork (h : s.Places) (free : s.Free p) (mem copy : Bool) :
    Shift s l (s.fork p mem copy) q := by
  have running := free.awake
  have out := free.out
  unfold State.fork
  rcases s.table.allocproc_cases mem with hc | ⟨np, hf, hc⟩
  · rw [hc]
    exact setPc (still rfl (.refl _ _)) out rfl running
  have unused : (s.proc np).state = .unused := findUnused_some hf
  have ne := free.ne_of_unused hf
  have taken : ∀ q, q ≠ np → (s.table.take np).proc q = s.table.proc q := fun q hq => by
    rw [take_proc, if_neg hq]
  have freed : Shift s l ({ s with table := (s.table.take np).freeproc np } : State n) q ∧
      ((s.table.take np).freeproc np).proc p = s.table.proc p := by
    refine ⟨replace np rfl ?_ fun q hq => ?_, ?_⟩
    · rw [proc, freeproc_proc, if_pos rfl]
      rintro ⟨⟩
    · rw [proc, freeproc_proc, if_neg hq, taken q hq]
      rfl
    · rw [freeproc_proc, if_neg ne, taken p ne]
  have back : Shift s l (({ s with table := (s.table.take np).freeproc np } : State n).setPc p
      (.user .fail)) q := by
    refine freed.1.setPc out rfl ?_
    rwa [proc, freed.2]
  rcases hc with hc | hc <;> simp only [hc]
  · exact back
  cases copy with
  | false => exact back
  | true =>
    obtain ⟨r, hr⟩ := h.user_of_dead (q := np) (by rw [unused]; rfl)
    have made : (((s.table.take np).proc np)).state ≠ .sleeping := by
      rw [take_proc, if_pos rfl]
      rintro ⟨⟩
    refine setPc (setPc ?_ (by rw [hr]; rfl) rfl ?_) out rfl ?_
    · exact replace np rfl made taken
    · exact made
    · rwa [setPc_proc, proc, taken p ne]

theorem threadCreate (h : s.Places) (free : s.Free p) (args mem : Bool) :
    Shift s l (s.threadCreate p args mem) q := by
  have running := free.awake
  have out := free.out
  unfold State.threadCreate
  cases args with
  | false => exact setPc (still rfl (.refl _ _)) out rfl running
  | true =>
    rcases s.table.allocthread_cases p mem with hc | ⟨np, hf, hc | hc⟩ <;> simp only [hc, if_true]
    · exact setPc (still rfl (.refl _ _)) out rfl running
    · have ne := free.ne_of_unused hf
      have others : ∀ q, q ≠ np →
          ((s.table.takeThread p np).freeproc np).proc q = s.table.proc q := fun q hq => by
        rw [freeproc_proc, if_neg hq, Table.takeThread_proc, if_neg hq]
      refine setPc ?_ out rfl ?_
      · refine replace np rfl ?_ others
        rw [proc, freeproc_proc, if_pos rfl]
        rintro ⟨⟩
      · rwa [proc, others p ne]
    · have ne := free.ne_of_unused hf
      have unused : (s.proc np).state = .unused := findUnused_some hf
      obtain ⟨r, hr⟩ := h.user_of_dead (q := np) (by rw [unused]; rfl)
      have others : ∀ v w q, q ≠ np →
          (((s.table.takeThread p np).set np v).set np w).proc q = s.table.proc q :=
        fun v w q hq => by
          rw [set_of_ne hq, set_of_ne hq, Table.takeThread_proc, if_neg hq]
      refine setPc (setPc ?_ ?_ rfl ?_) out rfl ?_
      · refine replace np rfl ?_ (others _ _)
        rw [proc, set_self]
        rintro ⟨⟩
      · rw [hr]
        rfl
      · rw [proc, set_self]
        rintro ⟨⟩
      · rwa [setPc_proc, proc, others _ _ p ne]

theorem threadJoin (free : s.Free p) (retval : Bool) (io : Copies) :
    Shift s l (s.threadJoin p retval io) q := by
  have running := free.awake
  have out := free.out
  unfold State.threadJoin
  split
  · exact setPc (still rfl (.refl _ _)) out rfl running
  next pp hf =>
    split
    · exact setPc (still rfl (.refl _ _)) out rfl running
    · have others : ∀ q, q ≠ pp → (s.table.freeproc pp).proc q = s.table.proc q := fun q hq => by
        rw [freeproc_proc, if_neg hq]
      have gone : ((s.table.freeproc pp).proc pp).state ≠ .sleeping := by
        rw [freeproc_proc, if_pos rfl]
        nofun
      refine setPc ?_ out rfl ?_
      · exact replace pp rfl gone others
      · by_cases hp : p = pp
        · rwa [hp]
        · rwa [proc, others p hp]

theorem exit (status : UInt32) : Shift s l (s.exit p status) q := by
  refine .stays rfl fun hs => ?_
  by_cases hq : q = p
  · subst hq
    simp [State.exit, proc, Table.exit_eq] at hs
  · have same : (s.exit p status).proc q = (s.table.handOver p).proc q := set_of_ne hq
    have moved := Table.Moved.handOver s.table p
    rw [same] at hs ⊢
    refine ⟨?_, moved.chan⟩
    rcases moved.state (q := q) with hst | hst
    · exact hst.symm.trans hs
    · exact hst.1

theorem pick (run : (s.proc p).state = .runnable) (h : s.Places) : Shift s l (s.pick p) q := by
  have awake : ∀ chan, (({ s with
      table := s.table.set p { s.proc p with state := .running, chan := chan } } :
        State n).proc p).state ≠ .sleeping := fun chan => by
    rw [proc, set_self]
    rintro ⟨⟩
  have out : (s.pc p).locked = false := by
    by_contra hl
    have running := (h.place p).locked (by simpa using hl)
    rw [run] at running
    cases running
  have others : ∀ v q, q ≠ p → (s.table.set p v).proc q = s.table.proc q := fun v q hq =>
    set_of_ne hq
  unfold State.pick
  split
  next c hc =>
    by_cases hq : q = p
    · subst hq
      refine .goes out (by rw [setPc_self]; rfl) (awake none) fun c' hc' => .inr ?_
      rw [setPc_self] at hc'
      rwa [hc]
    · exact .other (setPc_of_ne _ _ hq) (others _ q hq)
  next r hr =>
    refine setPc ?_ out rfl (awake none)
    exact replace _ rfl (awake none) (others _)
  next => exact replace _ rfl (awake _) (others _)

theorem consoleintr (c : UInt8) (cur : Option (Fin n)) : Shift s l (s.consoleintr c cur) q := by
  unfold State.consoleintr
  repeat' split
  all_goals first
    | exact still rfl (.refl _ _)
    | exact still rfl (.wakeup _ _ _ _)
    | exact still rfl (.setkilled _ _ _)

theorem pipeclose (i : Nat) (w : Bool) : Shift s l (s.pipeclose i w) q := by
  unfold State.pipeclose
  split <;> exact still rfl (.wakeup _ _ _ _)

end Shift

end State

open State

theorem Step.shift (st : Step s l s') (h : s.Places) (q : Fin n) : Shift s l s' q := by
  cases st with
  | fork free => exact .fork h free _ _
  | @forkParent p np pid at_ run lock =>
    refine Shift.setPc ?_ (by rw [at_]; rfl) rfl ?_
    · refine .stays rfl fun hs => ?_
      have moved : s.table.Moved (s.setParent np p).table := .setParent _ _ _
      refine ⟨?_, moved.chan⟩
      rcases moved.state (q := q) with hst | hst
      · exact hst.symm.trans hs
      · exact hst.1
    · have same : ((s.setParent np p).proc p).state = (s.proc p).state := by
        rw [setParent, proc, set_proc]
        split
        next e => rw [e]
        next => rfl
      rw [same, run]
      rintro ⟨⟩
  | @forkRun p np pid at_ run =>
    refine Shift.setPc ?_ (by rw [at_]; rfl) rfl ?_
    · refine .replace np rfl ?_ fun q hq => set_of_ne hq
      rw [setState, proc, set_self]
      rintro ⟨⟩
    · rw [setState, proc, set_proc]
      split
      · rintro ⟨⟩
      · rw [show (s.table.proc p).state = .running from run]
        rintro ⟨⟩
  | exit free init lock => exact .exit _
  | kill free =>
    refine Shift.setPc ?_ free.out rfl ?_
    · exact .still rfl (.kill _ _ _)
    · rw [proc, (Still.kill s.table _ _).1 free.1]
      rintro ⟨⟩
  | setkilled free => exact .still rfl (.setkilled _ _ _)
  | @call p c free starts =>
    by_cases hq : q = p
    · subst hq
      obtain ⟨r, hr⟩ := free.user
      refine .goes free.out (by rw [setPc_self]; rfl) free.awake
        fun c' hc' => .inl ⟨?_, by rw [hr]; rfl⟩
      rw [setPc_self] at hc'
      cases hc'
      exact starts
    · exact .other (setPc_of_ne _ _ hq) rfl
  | @acquire p c at_ run lock =>
    by_cases hq : q = p
    · subst hq
      refine .acquires at_ (setPc_self ..) ?_
      rw [setHolder_proc, setPc_proc, run]
      rintro ⟨⟩
    · exact .other (setPc_of_ne _ _ hq) rfl
  | @pass p io c s1 next at_ run eq =>
    by_cases hq : q = p
    · subst hq
      exact .passes rfl
    · have frame := pass_frame eq
      have pc : (s1.goOn p c next).pc q = s.pc q := by
        cases next <;> simp [goOn, setPc_of_ne _ _ hq, frame.pc]
      refine .stays pc fun hs => ?_
      simp only [proc, goOn_table] at hs ⊢
      rcases frame.table with ⟨-, ht | ⟨chan, ht⟩⟩ | ⟨pp, -, -, rfl, -⟩
      · rw [ht] at hs ⊢
        exact ⟨hs, rfl⟩
      · rw [ht] at hs ⊢
        exact (Still.wakeup s.table q _ _).2 hs
      · rw [reap, freeproc_proc] at hs ⊢
        split at hs
        · cases hs
        next hne =>
          rw [if_neg hne]
          exact ⟨hs, rfl⟩
  | @sleep p c at_ run =>
    by_cases hq : q = p
    · subst hq
      refine .sleeps at_ (setPc_self ..) ?_
      simp [State.sleep, proc]
    · exact .other (setPc_of_ne _ _ hq) (set_of_ne hq)
  | @block p a r at_ run =>
    by_cases hq : q = p
    · subst hq
      refine .blocks (a := a) at_ (setPc_self ..) ?_
      simp [State.sleep, proc]
    · exact .other (setPc_of_ne _ _ hq) (set_of_ne hq)
  | wake | clockintr => exact .still rfl (.wakeup _ _ _ _)
  | pick run => exact .pick run h
  | @yield p run =>
    refine .replace p rfl ?_ fun q hq => set_of_ne hq
    rw [setState, proc, set_self]
    rintro ⟨⟩
  | consoleintr lock run => exact .consoleintr _ _
  | pipealloc read write idle => exact .still rfl (.refl _ _)
  | pipeclose lock idle => exact .pipeclose _ _
  | threadCreate free => exact .threadCreate h free _ _
  | threadJoin free => exact .threadJoin free _ _
  | @joined p pp at_ run =>
    refine Shift.setPc (.still rfl (.refl _ _)) (by rw [at_]; rfl) rfl ?_
    rw [run]
    rintro ⟨⟩

namespace Pipe

def isOpen (pi : Pipe) : Bool → Bool
  | true => pi.writeopen
  | false => pi.readopen

/-- The pipe gives a writer, or a reader, a reason to sleep. -/
def Blocks (pi : Pipe) : Bool → Prop
  | true => pi.nwrite = pi.nread + UInt32.ofNat pipeSize ∧ pi.readopen
  | false => pi.nread = pi.nwrite ∧ pi.writeopen

end Pipe

/-- The bytes that `pipewrite` has stored, while it has the pipe's lock. -/
def Pc.stored : Pc n → Nat
  | loop (.pipewrite _ _ m) => m
  | _ => 0

def endChan (i : Nat) : Bool → Chan n
  | true => .nwrite i
  | false => .nread i

theorem Call.chan_eq_endChan {c : Call} (q : Fin n) :
    c.chan q = endChan i w ↔ c.pipeEnd = some (i, w) := by
  cases c <;> cases w <;> simp [Call.chan, endChan, Call.pipeEnd]

theorem Call.pipeEnd_of_lk {c : Call} (h : c.lk = .pipe i) : ∃ w, c.pipeEnd = some (i, w) := by
  cases c <;> simp_all [Call.pipeEnd, Call.lk]

theorem Call.lk_of_pipeEnd {c : Call} (h : c.pipeEnd = some (i, w)) : c.lk = .pipe i := by
  cases c <;> simp_all [Call.pipeEnd, Call.lk]

namespace State

variable {s s' : State n} {l : Label n} {p q : Fin n} {i : Nat} {w : Bool} {c : Call}

/-- A process with the pipe's lock has made room, or stored bytes, and will wake the sleepers. -/
def Excused (s : State n) (i : Nat) : Bool → Prop
  | true => ∃ p k m, s.pc p = .loop (.piperead i k (some m))
  | false => ∃ p k m, s.pc p = .loop (.pipewrite i k m) ∧ 0 < m ∧ s.killed p = false ∧
      (s.pipe i).readopen

/-- The sleepers on the pipe `i` have a reason to sleep, or will be woken. -/
structure Rested (s : State n) (i : Nat) : Prop where
  opened : ∀ q w, s.Uses i w q → (s.pipe i).isOpen w
  tested : ∀ q c w, s.pc q = .tested c → c.pipeEnd = some (i, w) → (s.pipe i).Blocks w
  uses : ∀ q w, (s.proc q).state = .sleeping → (s.proc q).chan = some (endChan i w) → s.Uses i w q
  sleeps : ∀ q w, (s.proc q).state = .sleeping → (s.proc q).chan = some (endChan i w) →
    (s.pipe i).Blocks w ∨ s.Excused i w

theorem Starts.isOpen (h : s.Starts c) (mine : c.pipeEnd = some (i, w)) : (s.pipe i).isOpen w := by
  cases c with
  | piperead | pipewrite =>
    cases mine
    exact h.1
  | _ => cases mine

theorem uses_iff : s.Uses i w q ↔ ∃ c, (s.pc q).call = some c ∧ c.pipeEnd = some (i, w) :=
  Option.bind_eq_some_iff

/-- What a step keeps of the process `q` and the pipe `i`. -/
structure Kept (s s' : State n) (i : Nat) (q : Fin n) : Prop where
  opened : ∀ w, s'.Uses i w q → s.Uses i w q ∨ (s.pipe i).isOpen w
  tested : ∀ c w, s'.pc q = .tested c → c.pipeEnd = some (i, w) → s.pc q = .tested c
  sleeps : ∀ w, (s'.proc q).state = .sleeping → (s'.proc q).chan = some (endChan i w) →
    s'.Uses i w q ∧ ((s.pipe i).Blocks w ∨
      (s.proc q).state = .sleeping ∧ (s.proc q).chan = some (endChan i w))

theorem Rested.kept (h : s.Rested i) (shift : Shift s l s' q) (nopass : ∀ io, l ≠ .pass q io) :
    Kept s s' i q := by
  cases shift with
  | stays pc sleep =>
    have uses : ∀ w, s'.Uses i w q ↔ s.Uses i w q := fun w => by rw [Uses, Uses, pc]
    refine ⟨fun w hu => .inl ((uses w).mp hu), fun c w hc _ => pc ▸ hc, fun w hs hc => ?_⟩
    obtain ⟨slept, chan⟩ := sleep hs
    rw [chan] at hc
    exact ⟨(uses w).mpr (h.uses q w slept hc), .inr ⟨slept, hc⟩⟩
  | goes out free awake call =>
    refine ⟨fun w hu => ?_, fun c w hc _ => ?_, fun w hs => (awake hs).elim⟩
    · obtain ⟨c, hc, mine⟩ := uses_iff.mp hu
      rcases call c hc with ⟨starts, -⟩ | was
      · exact .inr (starts.isOpen mine)
      · exact .inl (uses_iff.mpr ⟨c, was, mine⟩)
    · rw [hc] at free
      cases free
  | acquires at_ after awake =>
    refine ⟨fun w hu => .inl ?_, fun c w hc _ => ?_, fun w hs => (awake hs).elim⟩
    · rw [Uses, after] at hu
      rwa [Uses, at_]
    · rw [after] at hc
      cases hc
  | passes label => exact (nopass _ label).elim
  | @sleeps c at_ after chan =>
    refine ⟨fun w hu => .inl ?_, fun c w hc _ => ?_, fun w _ hc => ?_⟩
    · rw [Uses, after] at hu
      rwa [Uses, at_]
    · rw [after] at hc
      cases hc
    · rw [chan, Option.some.injEq, Call.chan_eq_endChan] at hc
      refine ⟨?_, .inl (h.tested q c w at_ hc)⟩
      rwa [Uses, after]
  | blocks at_ after chan =>
    refine ⟨fun w hu => ?_, fun c w hc _ => ?_, fun w _ hc => ?_⟩
    · rw [Uses, after] at hu
      cases hu
    · rw [after] at hc
      cases hc
    · rw [chan] at hc
      cases w <;> cases hc

theorem Rested.frame (h : s.Rested i) (kept : ∀ q, Kept s s' i q) (pipe : s'.pipe i = s.pipe i)
    (excused : ∀ w, s.Excused i w → s'.Excused i w) : s'.Rested i where
  opened q w hu := by
    rw [pipe]
    rcases (kept q).opened w hu with was | opened
    · exact h.opened q w was
    · exact opened
  tested q c w hc mine := by
    rw [pipe]
    exact h.tested q c w ((kept q).tested c w hc mine) mine
  uses q w hs hc := ((kept q).sleeps w hs hc).1
  sleeps q w hs hc := by
    rw [pipe]
    rcases ((kept q).sleeps w hs hc).2 with blocks | ⟨slept, chan⟩
    · exact .inl blocks
    · rcases h.sleeps q w slept chan with blocks | excused'
      · exact .inl blocks
      · exact .inr (excused w excused')

/-- No `kill` is for the pid of a process that has stored bytes in a pipe and not yet woken the
readers. -/
def KillsOutsidePipewrite (s : State n) : Label n → Prop
  | .kill _ pid => ∀ q, (s.proc q).pid = pid → (s.pc q).stored = 0
  | _ => True

instance : DecidableRel (KillsOutsidePipewrite (n := n)) := fun s l => by
  apply Label.casesOn (motive := fun l => Decidable (KillsOutsidePipewrite s l)) l <;> intros <;>
    dsimp only [KillsOutsidePipewrite] <;> infer_instance

/-- A process in a section keeps its place until its own next step, and is not killed there but by
`kill`. -/
theorem excused_step (places : s.Places) (st : Step s l s') (ok : KillsOutsidePipewrite s l)
    (nopass : ∀ q c io, s.pc q = .loop c → c.lk = .pipe i → l ≠ .pass q io)
    (readopen : (s.pipe i).readopen → (s'.pipe i).readopen) (h : s.Excused i w) :
    s'.Excused i w := by
  have stays : ∀ q c, s.pc q = .loop c → c.lk = .pipe i → s'.pc q = .loop c := by
    intro q c at_ mine
    cases st.shift places q with
    | stays pc sleep => exact pc.trans at_
    | goes out free awake call =>
      rw [at_] at out
      cases out
    | passes label => exact (nopass q c _ at_ mine label).elim
    | acquires at' after awake | sleeps at' after chan | blocks at' after chan =>
      rw [at_] at at'
      cases at'
  cases w with
  | true =>
    obtain ⟨p, k, m, at_⟩ := h
    exact ⟨p, k, m, stays p _ at_ rfl⟩
  | false =>
    obtain ⟨p, k, m, at_, some, alive, opened⟩ := h
    refine ⟨p, k, m, stays p _ at_ rfl, some, ?_, readopen opened⟩
    by_contra hk
    rcases st.marks (by simpa using hk) with killed | ⟨p', pid, rfl, hpid, -⟩ | ⟨run, -⟩
    · rw [alive] at killed
      cases killed
    · have none := ok p hpid
      rw [at_] at none
      exact some.ne' none
    · have := run.2
      rw [at_] at this
      exact this rfl

theorem Places.only (places : s.Places) (at_ : s.pc p = .loop c) (mine : c.lk = .pipe i)
    (at' : s.pc q = .loop c' ∨ s.pc q = .tested c') (mine' : c'.lk = .pipe i) : q = p := by
  have held := ((places.place p).holds (.pipe i)).mp ⟨c, mine, .inl at_⟩
  have held' := ((places.place q).holds (.pipe i)).mp ⟨c', mine', at'⟩
  rw [held] at held'
  exact (Option.some.inj held').symm

theorem Places.excused (places : s.Places) (at_ : s.pc p = .loop c) (mine : c.lk = .pipe i)
    (h : s.Excused i w) :
    match w with
    | true => ∃ k m, c = .piperead i k (some m)
    | false => ∃ k m, c = .pipewrite i k m ∧ 0 < m ∧ s.killed p = false ∧ (s.pipe i).readopen := by
  cases w with
  | true =>
    obtain ⟨q, k, m, hq⟩ := h
    obtain rfl := places.only at_ mine (.inl hq) rfl
    rw [at_] at hq
    cases hq
    exact ⟨k, m, rfl⟩
  | false =>
    obtain ⟨q, k, m, hq, some, alive, opened⟩ := h
    obtain rfl := places.only at_ mine (.inl hq) rfl
    rw [at_] at hq
    cases hq
    exact ⟨k, m, rfl, some, alive, opened⟩

theorem Rested.pass (h : s.Rested i) (places : s.Places) {w0 : Bool}
    (at_ : s.pc p = .loop c) (run : (s.proc p).state = .running) (mine : c.pipeEnd = some (i, w0))
    (frame : PassFrame s p c s' next) (opened : ∀ w, (s'.pipe i).isOpen w = (s.pipe i).isOpen w)
    (tested : ∀ c', next = .sleep c' → (s'.pipe i).Blocks w0)
    (sleeps : ∀ q w, q ≠ p → (s'.proc q).state = .sleeping →
      (s'.proc q).chan = some (endChan i w) →
      (s.proc q).state = .sleeping → (s.proc q).chan = some (endChan i w) →
      (s'.pipe i).Blocks w ∨ (s'.goOn p c next).Excused i w) : (s'.goOn p c next).Rested i := by
  have lk := Call.lk_of_pipeEnd mine
  have still : ∀ q, Still s.table s'.table q := by
    intro q
    rcases frame.table with ⟨-, ht | ⟨chan, ht⟩⟩ | ⟨pp, wait, -⟩
    · exact ht ▸ .refl _ _
    · exact ht ▸ .wakeup _ _ _ _
    · rw [lk] at wait
      cases wait
  have others : ∀ q, q ≠ p → (s'.goOn p c next).pc q = s.pc q := by
    intro q hq
    cases next <;> simp [goOn, setPc_of_ne _ _ hq, frame.pc]
  have mineAfter : ∀ w, (s'.goOn p c next).Uses i w p → w = w0 := by
    intro w hu
    have ends : ∀ c' : Call, c'.pipeEnd = c.pipeEnd → c'.pipeEnd = some (i, w) → w = w0 := by
      intro c' same hc
      rw [same, mine] at hc
      cases hc
      rfl
    cases next with
    | again c' =>
      rw [Uses, goOn, setPc_self] at hu
      exact ends c' (frame.again c' rfl).2 hu
    | sleep c' =>
      rw [Uses, goOn, setPc_self] at hu
      exact ends c' (by rw [(frame.sleep c' rfl).1]) hu
    | ret r =>
      rw [Uses, goOn, setHolder_pc, setPc_self] at hu
      cases hu
  have awake : ((s'.goOn p c next).proc p).state ≠ .sleeping := by
    rw [proc, goOn_table, (still p).1 run]
    rintro ⟨⟩
  refine ⟨fun q w hu => ?_, fun q c' w hc hmine => ?_, fun q w hs hc => ?_, fun q w hs hc => ?_⟩
  · rw [goOn_pipe, opened]
    by_cases hq : q = p
    · subst hq
      rw [mineAfter w hu]
      refine h.opened q w0 ?_
      rwa [Uses, at_]
    · rw [Uses, others q hq] at hu
      exact h.opened q w hu
  · rw [goOn_pipe]
    by_cases hq : q = p
    · subst hq
      have used : (s'.goOn q c next).Uses i w q := by
        rwa [Uses, hc]
      rw [mineAfter w used]
      cases next with
      | sleep c'' => exact tested c'' rfl
      | again | ret => simp [goOn] at hc
    · rw [others q hq] at hc
      exact (hq (places.only at_ lk (.inr hc) (Call.lk_of_pipeEnd hmine))).elim
  · by_cases hq : q = p
    · subst hq
      exact (awake hs).elim
    · rw [proc, goOn_table] at hs hc
      obtain ⟨slept, chan⟩ := (still q).2 hs
      rw [Uses, others q hq]
      exact h.uses q w slept (chan ▸ hc)
  · by_cases hq : q = p
    · subst hq
      exact (awake hs).elim
    · rw [proc, goOn_table] at hs hc
      obtain ⟨slept, chan⟩ := (still q).2 hs
      rw [goOn_pipe]
      exact sleeps q w hq hs hc slept (chan ▸ hc)

theorem not_sleeping_wakeup (hq : q ≠ p)
    (hs : ((s.wakeup (some p) chan).proc q).state = .sleeping) :
    ((s.wakeup (some p) chan).proc q).chan ≠ some chan := by
  have := Table.sleeping_of_wakeup hs
  rw [show ((s.wakeup (some p) chan).proc q).chan = (s.table.proc q).chan from Table.wakeup_chan]
  rcases this.2 with me | ne
  · cases me
    exact (hq rfl).elim
  · exact ne

theorem Rested.pipereadWait (h : s.Rested i) (places : s.Places)
    (at_ : s.pc p = .loop (.piperead i k none)) (run : (s.proc p).state = .running) :
    ((s.pipereadWait p i k).1.goOn p (.piperead i k none) (s.pipereadWait p i k).2).Rested i := by
  have same : (s.pipereadWait p i k).1 = s := by
    unfold State.pipereadWait
    repeat' split
    all_goals rfl
  have frame : PassFrame s p (.piperead i k none) (s.pipereadWait p i k).1
    (s.pipereadWait p i k).2 := pipereadWait_frame
  have tested : ∀ c', (s.pipereadWait p i k).2 = .sleep c' → (s.pipe i).Blocks false := by
    unfold State.pipereadWait
    intro c' hc
    repeat' split at hc
    · cases hc
    next blocks _ => exact blocks
    · cases hc
  rw [same] at frame ⊢
  refine h.pass places at_ run rfl frame (fun _ => rfl) tested fun q w _ _ _ hs hc => .inl ?_
  -- the process is neither copying nor writing
  rcases h.sleeps q w hs hc with blocks | excused
  · exact blocks
  · have := places.excused at_ rfl excused
    cases w with
    | true =>
      obtain ⟨k', m, hc⟩ := this
      cases hc
    | false =>
      obtain ⟨k', m, hc, -⟩ := this
      cases hc

theorem Rested.pipereadCopy (h : s.Rested i) (places : s.Places) (io : Copies)
    (at_ : s.pc p = .loop (.piperead i k (some m))) (run : (s.proc p).state = .running) :
    ((s.pipereadCopy p i k m io).1.goOn p (.piperead i k (some m))
      (s.pipereadCopy p i k m io).2).Rested i := by
  have frame : PassFrame s p (.piperead i k (some m)) (s.pipereadCopy p i k m io).1
    (s.pipereadCopy p i k m io).2 := pipereadCopy_frame
  -- a sleeping reader sees an empty pipe: the process is not writing
  have reader : ∀ q, (s.proc q).state = .sleeping → (s.proc q).chan = some (endChan i false) →
      (s.pipe i).Blocks false := by
    intro q hs hc
    rcases h.sleeps q false hs hc with blocks | excused
    · exact blocks
    · obtain ⟨k', m', hc, -⟩ := places.excused at_ rfl excused
      cases hc
  unfold State.pipereadCopy at frame ⊢
  dsimp only at frame ⊢
  split at frame
  next more =>
    rw [if_pos more]
    split at frame
    next copied =>
      rw [if_pos copied]
      refine h.pass places at_ run rfl frame ?_ (fun _ hc => by cases hc) ?_
      · intro w
        cases w <;> simp [setPipe, Pipe.isOpen, Pipe.deliver, Pipe.get]
      · intro q w _ _ _ hs hc
        cases w with
        | true => exact .inr ⟨p, k, m + 1, setPc_self ..⟩
        | false => exact (more.2 (reader q hs hc).1).elim
    next failed =>
      rw [if_neg failed]
      refine h.pass places at_ run rfl frame ?_ (fun _ hc => by cases hc) ?_
      · intro w
        cases w <;> simp [State.wakeup, setPipe, Pipe.isOpen, Pipe.get]
      · intro q w hq hs' hc' hs hc
        cases w with
        | true => exact (not_sleeping_wakeup hq hs' hc').elim
        | false => exact (more.2 (reader q hs hc).1).elim
  next done =>
    rw [if_neg done]
    refine h.pass places at_ run rfl frame (fun _ => rfl) (fun _ hc => by cases hc) ?_
    intro q w hq hs' hc' hs hc
    cases w with
    | true => exact (not_sleeping_wakeup hq hs' hc').elim
    | false => exact .inl (reader q hs hc)

theorem Rested.pipewritePass (h : s.Rested i) (places : s.Places) (io : Copies)
    (at_ : s.pc p = .loop (.pipewrite i k m)) (run : (s.proc p).state = .running) :
    ((s.pipewritePass p i k m io).1.goOn p (.pipewrite i k m)
      (s.pipewritePass p i k m io).2).Rested i := by
  have frame : PassFrame s p (.pipewrite i k m) (s.pipewritePass p i k m io).1
    (s.pipewritePass p i k m io).2 := pipewritePass_frame
  -- a sleeping writer sees a full pipe: the process is not copying
  have writer : ∀ q, (s.proc q).state = .sleeping → (s.proc q).chan = some (endChan i true) →
      (s.pipe i).Blocks true := by
    intro q hs hc
    rcases h.sleeps q true hs hc with blocks | excused
    · exact blocks
    · obtain ⟨k', m', hc⟩ := places.excused at_ rfl excused
      cases hc
  -- after the `wakeup` no reader sleeps
  have woken : ∀ {r : Next}, ∀ q w, q ≠ p →
      ((s.wakeup (some p) (.nread i)).proc q).state = .sleeping →
      ((s.wakeup (some p) (.nread i)).proc q).chan = some (endChan i w) →
      (s.proc q).state = .sleeping → (s.proc q).chan = some (endChan i w) →
      ((s.wakeup (some p) (.nread i)).pipe i).Blocks w ∨
        ((s.wakeup (some p) (.nread i)).goOn p (.pipewrite i k m) r).Excused i w := by
    intro r q w hq hs' hc' hs hc
    cases w with
    | true => exact .inl (writer q hs hc)
    | false => exact (not_sleeping_wakeup hq hs' hc').elim
  unfold State.pipewritePass at frame ⊢
  split at frame
  next more =>
    rw [if_pos more]
    split at frame
    next gone =>
      rw [if_pos gone]
      refine h.pass places at_ run rfl frame (fun _ => rfl) (fun _ hc => by cases hc) ?_
      intro q w _ _ _ hs hc
      cases w with
      | true => exact .inl (writer q hs hc)
      | false =>
        rcases h.sleeps q false hs hc with blocks | excused
        · exact .inl blocks
        · obtain ⟨k', m', hc, -, alive, opened⟩ := places.excused at_ rfl excused
          simp_all
    next goes =>
      rw [if_neg goes]
      split at frame
      next full =>
        rw [if_pos full]
        refine h.pass places at_ run rfl frame (fun _ => rfl) (fun _ _ => ⟨full, ?_⟩) woken
        show (s.pipe i).readopen = true
        simpa using (not_or.mp goes).1
      next room =>
        rw [if_neg room]
        split at frame
        next byte =>
          exact h.pass places at_ run rfl frame (fun _ => rfl) (fun _ hc => by cases hc) woken
        next ch byte =>
          have alive : s.killed p = false := by simpa using (not_or.mp goes).2
          have opened : (s.pipe i).readopen := by simpa using (not_or.mp goes).1
          refine h.pass places at_ run rfl frame ?_ (fun _ hc => by cases hc) ?_
          · intro w
            cases w <;> simp [setPipe, Pipe.isOpen, Pipe.put]
          · intro q w _ _ _ hs hc
            cases w with
            | true => exact (room (writer q hs hc).1).elim
            | false =>
              refine .inr ⟨p, k, m + 1, setPc_self .., Nat.succ_pos m, alive, ?_⟩
              simpa [goOn, setPc, setPipe, Pipe.put] using opened
  next done =>
    rw [if_neg done]
    exact h.pass places at_ run rfl frame (fun _ => rfl) (fun _ hc => by cases hc) woken

theorem Rested.pipealloc (h : s.Rested i) (idle : ∀ p w, ¬s.Uses i w p)
    (page : Fin pipeSize → UInt8) : (s.setPipe i (.alloc page)).Rested i where
  opened q w hu := (idle q w hu).elim
  tested q c w hc mine := by
    refine (idle q w ?_).elim
    rwa [Uses, show s.pc q = .tested c from hc]
  uses q w hs hc := h.uses q w hs hc
  sleeps q w hs hc := (idle q w (h.uses q w hs hc)).elim

theorem Rested.pipeclose (h : s.Rested i) (places : s.Places) (lock : s.holder (.pipe i) = none)
    {w0 : Bool} (idle : ∀ p, ¬s.Uses i w0 p) : (s.pipeclose i w0).Rested i := by
  have unheld : ∀ q c, c.lk = .pipe i → ¬(s.pc q = .loop c ∨ s.pc q = .tested c) := by
    intro q c mine at_
    have held := ((places.place q).holds (.pipe i)).mp ⟨c, mine, at_⟩
    rw [lock] at held
    cases held
  have sleeps : ∀ q w, (s.proc q).state = .sleeping → (s.proc q).chan = some (endChan i w) →
      (s.pipe i).Blocks w := by
    intro q w hs hc
    rcases h.sleeps q w hs hc with blocks | excused
    · exact blocks
    · cases w with
      | true =>
        obtain ⟨p, k, m, at_⟩ := excused
        exact (unheld p _ rfl (.inl at_)).elim
      | false =>
        obtain ⟨p, k, m, at_, -⟩ := excused
        exact (unheld p _ rfl (.inl at_)).elim
  -- the end that is closed wakes the sleepers on the other one
  have close : s.pipeclose i w0 = (s.setPipe i (if w0 then { s.pipe i with writeopen := false }
      else { s.pipe i with readopen := false })).wakeup none (endChan i !w0) := by
    cases w0 <;> rfl
  have pc : (s.pipeclose i w0).pc = s.pc := by rw [close]; rfl
  have before : ∀ q, ((s.pipeclose i w0).proc q).state = .sleeping →
      (s.proc q).state = .sleeping ∧ (s.proc q).chan ≠ some (endChan i !w0) ∧
      ((s.pipeclose i w0).proc q).chan = (s.proc q).chan := by
    intro q hs
    rw [close] at hs ⊢
    obtain ⟨slept, me | ne⟩ := Table.sleeping_of_wakeup hs
    · cases me
    · exact ⟨slept, ne, Table.wakeup_chan⟩
  refine ⟨fun q w hu => ?_, fun q c w hc mine => ?_, fun q w hs hc => ?_, fun q w hs hc => ?_⟩
  · rw [Uses, pc] at hu
    have opened := h.opened q w hu
    have other : w ≠ w0 := by
      rintro rfl
      exact idle q hu
    cases w <;> cases w0 <;>
      simp_all [State.pipeclose, State.wakeup, setPipe, Pipe.isOpen]
  · rw [pc] at hc
    exact (unheld q c (Call.lk_of_pipeEnd mine) (.inr hc)).elim
  · obtain ⟨slept, -, same⟩ := before q hs
    rw [Uses, pc]
    exact h.uses q w slept (same ▸ hc)
  · obtain ⟨slept, ne, same⟩ := before q hs
    rw [same] at hc
    have blocks := sleeps q w slept hc
    cases w <;> cases w0 <;>
      simp_all [State.pipeclose, State.wakeup, setPipe, Pipe.Blocks]

theorem pass_pipe (other : ∀ w, c.pipeEnd ≠ some (i, w)) : (s.pass p io c).1.pipe i = s.pipe i := by
  have elsewhere : ∀ j pi, j ≠ i → (s.setPipe j pi).pipe i = s.pipe i := fun j pi hj =>
    update_of_ne hj.symm ..
  match c with
  | .wait addr =>
    simp only [State.pass, State.waitPass]
    repeat' split
    all_goals rfl
  | .sleep k ticks0 =>
    simp only [State.pass, State.sleepPass]
    repeat' split
    all_goals rfl
  | .piperead j k none =>
    simp only [State.pass, State.pipereadWait]
    repeat' split
    all_goals rfl
  | .piperead j k (some m) =>
    have hj : j ≠ i := fun e => other false (by rw [Call.pipeEnd, e])
    simp only [State.pass, State.pipereadCopy]
    repeat' split
    · exact elsewhere j _ hj
    · exact elsewhere j _ hj
    · rfl
  | .pipewrite j k m =>
    have hj : j ≠ i := fun e => other true (by rw [Call.pipeEnd, e])
    simp only [State.pass, State.pipewritePass]
    repeat' split
    all_goals first
      | rfl
      | exact elsewhere j _ hj
  | .consoleread target k =>
    simp only [State.pass, State.consolereadPass]
    repeat' split
    all_goals rfl

theorem Rested.otherPass (h : s.Rested i) (places : s.Places) {io : Copies}
    (at_ : s.pc p = .loop c) (run : (s.proc p).state = .running) (eq : s.pass p io c = (s1, next))
    (other : ∀ w, c.pipeEnd ≠ some (i, w)) : (s1.goOn p c next).Rested i := by
  have frame := pass_frame eq
  have st : Step s (.pass p io) (s1.goOn p c next) := .pass at_ run eq
  have pipe : (s1.goOn p c next).pipe i = s.pipe i := by
    have same : (s.pass p io c).1.pipe i = s.pipe i := pass_pipe other
    rw [eq] at same
    rwa [goOn_pipe]
  -- the process itself is in no call on the pipe, before and after
  have out : ∀ w, ¬(s1.goOn p c next).Uses i w p := by
    intro w hu
    cases next with
    | again c' =>
      rw [Uses, goOn, setPc_self] at hu
      exact other w ((frame.again c' rfl).2 ▸ hu)
    | sleep c' =>
      rw [Uses, goOn, setPc_self] at hu
      exact other w ((frame.sleep c' rfl).1 ▸ hu)
    | ret r =>
      rw [Uses, goOn, setHolder_pc, setPc_self] at hu
      cases hu
  refine h.frame (fun q => ?_) pipe ?_
  · by_cases hq : q = p
    · subst hq
      refine ⟨fun w hu => (out w hu).elim, fun c' w hc mine => ?_, fun w hs _ => ?_⟩
      · refine (out w ?_).elim
        rwa [Uses, hc]
      · rcases frame.table with ⟨-, ht | ⟨chan, ht⟩⟩ | ⟨pp, -, hz, rfl, -⟩
        · rw [proc, goOn_table, ht, show (s.table.proc q).state = .running from run] at hs
          cases hs
        · rw [proc, goOn_table, ht, (Still.wakeup s.table q _ _).1 run] at hs
          cases hs
        · rw [proc, goOn_table, reap, freeproc_proc] at hs
          split at hs
          · cases hs
          · rw [show (s.table.proc q).state = .running from run] at hs
            cases hs
    · refine h.kept (st.shift places q) fun io' hl => hq ?_
      cases hl
      rfl
  · intro w
    refine excused_step places st trivial (fun q c' io' at' mine hl => ?_) (fun hr => by rwa [pipe])
    cases hl
    rw [at_] at at'
    cases at'
    obtain ⟨w', hw⟩ := Call.pipeEnd_of_lk mine
    exact other w' hw

theorem Rested.quiet (h : s.Rested i) (places : s.Places) (ok : KillsOutsidePipewrite s l)
    (st : Step s l s') (nopass : ∀ q io, l ≠ .pass q io) (pipe : s'.pipe i = s.pipe i) :
    s'.Rested i :=
  h.frame (fun q => h.kept (st.shift places q) (nopass q)) pipe fun _ =>
    excused_step places st ok (fun q _ io _ _ => nopass q io) (fun hr => by rwa [pipe])

theorem Rested.step (h : s.Rested i) (places : s.Places) (ok : KillsOutsidePipewrite s l)
    (st : Step s l s') : s'.Rested i := by
  have quiet := h.quiet places ok st
  cases st with
  | @pass p io c s1 next at_ run eq =>
    by_cases mine : c.lk = .pipe i
    · obtain ⟨rfl, rfl⟩ := Prod.mk.inj eq.symm
      match c, mine with
      | .piperead _ k none, rfl => exact h.pipereadWait places at_ run
      | .piperead _ k (some m), rfl => exact h.pipereadCopy places io at_ run
      | .pipewrite _ k m, rfl => exact h.pipewritePass places io at_ run
    · exact h.otherPass places at_ run eq fun w hw => mine (Call.lk_of_pipeEnd hw)
  | @pipealloc j page read write idle =>
    by_cases hj : j = i
    · subst hj
      exact h.pipealloc idle page
    · exact quiet nofun (update_of_ne (Ne.symm hj) ..)
  | @pipeclose j w lock idle =>
    by_cases hj : j = i
    · subst hj
      exact h.pipeclose places lock idle
    · refine quiet nofun ?_
      unfold State.pipeclose
      split <;> exact update_of_ne (Ne.symm hj) ..
  | fork free =>
    refine quiet nofun ?_
    unfold State.fork
    split
    · rfl
    · split <;> rfl
  | threadCreate free =>
    refine quiet nofun ?_
    unfold State.threadCreate
    repeat' split
    all_goals rfl
  | threadJoin free =>
    refine quiet nofun ?_
    unfold State.threadJoin
    repeat' split
    all_goals rfl
  | pick run =>
    refine quiet nofun ?_
    unfold State.pick
    split <;> rfl
  | consoleintr lock run =>
    refine quiet nofun ?_
    unfold State.consoleintr
    dsimp only
    repeat' split
    all_goals rfl
  | _ => exact quiet nofun rfl

end State

open State

/-- While the lock of a pipe is free, a process asleep on `nread` sees it empty with its write end
open, and one asleep on `nwrite` sees it full with its read end open. -/
theorem pipe_sleepers_justified [NeZero n] {s : State n} (run : Reach KillsOutsidePipewrite s)
    {i : Nat} (lock : s.holder (.pipe i) = none) {q : Fin n}
    (sleeps : (s.proc q).state = .sleeping) :
    ((s.proc q).chan = some (.nread i) →
      (s.pipe i).nread = (s.pipe i).nwrite ∧ (s.pipe i).writeopen = true) ∧
    ((s.proc q).chan = some (.nwrite i) →
      (s.pipe i).nwrite = (s.pipe i).nread + UInt32.ofNat pipeSize ∧
        (s.pipe i).readopen = true) := by
  have rested : s.Rested i := by
    refine run.invariant_reach (I := fun s => s.Rested i) ⟨?_, ?_, ?_, ?_⟩
      fun _ _ _ before h ok hstep => h.step (places before) ok (step_sound hstep)
    · intro q w hu
      cases hu
    · intro q c w hc
      cases hc
    all_goals
      intro q w hs
      rw [boot, proc, userinit_eq, set_proc] at hs
      split at hs
      · cases hs
      next hq =>
        rw [take_proc, if_neg hq] at hs
        cases hs
  have unheld : ∀ p c, c.lk = .pipe i → s.pc p ≠ .loop c := by
    intro p c mine at_
    have held := (((places run).place p).holds (.pipe i)).mp ⟨c, mine, .inl at_⟩
    rw [lock] at held
    cases held
  refine ⟨fun chan => ?_, fun chan => ?_⟩
  · rcases rested.sleeps q false sleeps chan with blocks | ⟨p, k, m, at_, -⟩
    · exact blocks
    · exact (unheld p _ rfl at_).elim
  · rcases rested.sleeps q true sleeps chan with blocks | ⟨p, k, m, at_⟩
    · exact blocks
    · exact (unheld p _ rfl at_).elim

/-- `init` makes a pipe and two children; the second falls asleep in `piperead`. -/
def readsEmptyPipe : List (Label nproc) :=
  [.pick 0, .pipealloc 0 (fun _ => 0), .fork 0 true true, .forkParent 0, .forkRun 0,
    .fork 0 true true, .forkParent 0, .forkRun 0, .pick 1, .pick 2,
    .call 2 (.piperead 0 1 none), .acquire 2, .pass 2 ⟨none, true⟩, .sleep 2]

theorem pipe_sleepers_justified_reader : ∃ s : State nproc, Reach KillsOutsidePipewrite s ∧
    (s.proc 2).state = .sleeping ∧ (s.proc 2).chan = some (.nread 0) ∧
    (s.pipe 0).nread = (s.pipe 0).nwrite ∧ (s.pipe 0).writeopen = true := by
  obtain ⟨s, reach, lock, sleeps, chan⟩ := exists_reach step KillsOutsidePipewrite (boot nproc)
    readsEmptyPipe
    (P := fun s => s.holder (.pipe 0) = none ∧ (s.proc 2).state = .sleeping ∧
      (s.proc 2).chan = some (.nread 0)) (by decide +kernel)
  exact ⟨s, reach, sleeps, chan, (pipe_sleepers_justified reach lock sleeps).1 chan⟩

/-- The first child writes one of two bytes and is killed, and `pipewrite` returns. -/
def killsWriter : List (Label nproc) :=
  readsEmptyPipe ++ [.call 1 (.pipewrite 0 2 0), .acquire 1, .pass 1 ⟨some 65, true⟩, .kill 0 2,
    .pass 1 ⟨some 66, true⟩]

/-- The reader sleeps on although the pipe is not empty. -/
theorem killed_writer_leaves_reader : ∃ s : State nproc, Reach (fun _ _ => True) s ∧
    s.holder (.pipe 0) = none ∧ (s.proc 2).state = .sleeping ∧
    (s.proc 2).chan = some (.nread 0) ∧ (s.pipe 0).nread ≠ (s.pipe 0).nwrite :=
  exists_reach step (fun _ _ => True) (boot nproc) killsWriter
    (P := fun s => s.holder (.pipe 0) = none ∧ (s.proc 2).state = .sleeping ∧
      (s.proc 2).chan = some (.nread 0) ∧ (s.pipe 0).nread ≠ (s.pipe 0).nwrite) (by decide +kernel)

end Xv6.Kernel
