import Xv6.Kernel.Effects
import Xv6.Lib.Ring

/-! A pipe is a queue, for any number of readers and writers and however often the counters wrap. -/

namespace Xv6.Kernel

open Transition

variable {n : Nat}

namespace Pipe

variable {pi : Pipe}

def count (pi : Pipe) : Nat := (pi.nwrite - pi.nread).toNat

/-- The bytes from `data[nread % PIPESIZE]` up to, but without, `data[nwrite % PIPESIZE]`. -/
def buffered (pi : Pipe) : List UInt8 :=
  (List.range pi.count).map fun k => pi.data (slot (pi.nread + UInt32.ofNat k))

/-- The pipe is a queue of at most `PIPESIZE` bytes. -/
structure Fifo (pi : Pipe) : Prop where
  order : pi.delivered ++ pi.buffered = pi.accepted
  count : pi.count ≤ pipeSize

theorem slot_eq (i : UInt32) : slot i = Ring.cell pipeSize i.toNat := rfl

theorem slot_add (i : UInt32) (k : Nat) :
    slot (i + UInt32.ofNat k) = Ring.cell pipeSize (i.toNat + k) := by
  rw [slot_eq, UInt32.toNat_add, UInt32.toNat_ofNat']
  rw [Nat.add_mod_mod, Ring.cell_mod (by decide)]

theorem buffered_eq (pi : Pipe) :
    pi.buffered = Ring.contents pi.data pi.nread.toNat pi.count :=
  List.map_congr_left fun k _ => by rw [slot_add]

theorem nwrite_eq (pi : Pipe) : pi.nwrite = pi.nread + UInt32.ofNat pi.count := by
  rw [count, UInt32.ofNat_toNat, UInt32.add_comm, UInt32.sub_add_cancel]

theorem put_count (h : pi.count < pipeSize) (ch : UInt8) : (pi.put ch).count = pi.count + 1 := by
  have : (pi.put ch).nwrite - (pi.put ch).nread = (pi.nwrite - pi.nread) + 1 := by
    show pi.nwrite + 1 - pi.nread = _
    grind
  rw [count, this, UInt32.toNat_add]
  have hc : (pi.nwrite - pi.nread).toNat < 512 := h
  rw [count, UInt32.toNat_one]
  omega

theorem get_count (h : 0 < pi.count) : pi.get.2.count + 1 = pi.count := by
  have : pi.get.2.nwrite - pi.get.2.nread = (pi.nwrite - pi.nread) - 1 := by
    show pi.nwrite - (pi.nread + 1) = _
    grind
  rw [count, this, UInt32.toNat_sub_of_le]
  · simp [count] at h ⊢
    omega
  · rwa [UInt32.le_iff_toNat_le]

theorem Fifo.put (h : pi.Fifo) (notFull : pi.nwrite ≠ pi.nread + UInt32.ofNat pipeSize)
    (ch : UInt8) : (pi.put ch).Fifo := by
  have room : pi.count < pipeSize := by
    refine lt_of_le_of_ne h.count fun hc => notFull ?_
    rw [← hc]
    exact pi.nwrite_eq
  refine ⟨?_, by rwa [put_count room]⟩
  have cell : slot pi.nwrite = Ring.cell pipeSize (pi.nread.toNat + pi.count) := by
    rw [← slot_add, ← nwrite_eq]
  have last : (pi.put ch).buffered = pi.buffered ++ [ch] := by
    rw [buffered_eq, put_count room, buffered_eq]
    show Ring.contents (Function.update pi.data (slot pi.nwrite) ch) pi.nread.toNat _ = _
    rw [cell, Ring.contents_push _ _ _ _ room]
  show pi.delivered ++ (pi.put ch).buffered = pi.accepted ++ [ch]
  rw [last, ← List.append_assoc, h.order]

theorem Fifo.get (h : pi.Fifo) (notEmpty : pi.nread ≠ pi.nwrite) :
    (pi.get.2.deliver pi.get.1).Fifo := by
  have some : 0 < pi.count := by
    refine Nat.pos_of_ne_zero fun hc => notEmpty ?_
    have := pi.nwrite_eq
    rw [hc] at this
    simpa using this.symm
  have count : (pi.get.2.deliver pi.get.1).count + 1 = pi.count := get_count some
  refine ⟨?_, by have := h.count; omega⟩
  have first : pi.buffered = pi.get.1 :: (pi.get.2.deliver pi.get.1).buffered := by
    rw [buffered_eq, ← count, Ring.contents_pop, buffered_eq]
    congr 1
    show _ = Ring.contents pi.data (pi.nread + 1).toNat _
    rw [UInt32.toNat_add, UInt32.toNat_one, Ring.contents_mod (by decide)]
  show (pi.delivered ++ [pi.get.1]) ++ _ = pi.accepted
  rw [List.append_assoc, List.singleton_append, ← first, h.order]

theorem Fifo.fresh (same : pi.nread = pi.nwrite) (accepted : pi.accepted = [])
    (delivered : pi.delivered = []) : pi.Fifo := by
  have none : pi.count = 0 := by rw [Pipe.count, same, UInt32.sub_self]; rfl
  refine ⟨?_, by rw [none]; exact Nat.zero_le _⟩
  rw [accepted, delivered, buffered, none]
  rfl

end Pipe

open State

/-- The user copies of the calls on pipes succeed. -/
def CopiesSucceed (s : State n) : Label n → Prop
  | .pass p io => ((s.pc p).call.bind Call.pipeEnd).isSome → io.byte.isSome ∧ io.copyout = true
  | _ => True

instance : DecidableRel (CopiesSucceed (n := n)) := fun s l => by
  cases l <;> dsimp only [CopiesSucceed] <;> infer_instance

def State.Fifos (s : State n) : Prop := ∀ i, (s.pipe i).Fifo

namespace State.Fifos

variable {s s' : State n} {p : Fin n} {io : Copies}

theorem setPipe (h : s.Fifos) {i : Nat} {pi : Pipe} (new : pi.Fifo) : (s.setPipe i pi).Fifos :=
  (Function.forall_update_iff s.pipe fun _ v => v.Fifo).mpr ⟨new, fun j _ => h j⟩

theorem same (h : s.Fifos) (pipe : s'.pipe = s.pipe) : s'.Fifos := fun i => by
  rw [pipe]; exact h i

theorem pipewritePass (h : s.Fifos) (pi : Nat) (k : Int) (i : Nat) :
    (s.pipewritePass p pi k i io).1.Fifos := by
  unfold State.pipewritePass
  repeat' split
  · exact h
  · exact h
  · exact h
  next notFull _ ch _ => exact h.setPipe ((h pi).put notFull ch)
  · exact h

theorem pipereadCopy (h : s.Fifos) (copies : io.copyout = true) (pi : Nat) (k : Int) (i : Nat) :
    (s.pipereadCopy p pi k i io).1.Fifos := by
  unfold State.pipereadCopy
  rw [copies]
  split
  next more => exact h.setPipe ((h pi).get more.2)
  next => exact h

theorem pass (h : s.Fifos) (c : Call) (copies : c.pipeEnd.isSome → io.copyout = true) :
    (s.pass p io c).1.Fifos := by
  match c with
  | .wait addr =>
    refine h.same ?_
    simp only [State.pass, State.waitPass]
    repeat' split
    all_goals rfl
  | .sleep k ticks0 =>
    refine h.same ?_
    simp only [State.pass, State.sleepPass]
    repeat' split
    all_goals rfl
  | .piperead pi k none =>
    refine h.same ?_
    simp only [State.pass, State.pipereadWait]
    repeat' split
    all_goals rfl
  | .piperead pi k (some i) => exact h.pipereadCopy (copies rfl) pi k i
  | .pipewrite pi k i => exact h.pipewritePass pi k i
  | .consoleread target k =>
    refine h.same ?_
    simp only [State.pass, State.consolereadPass]
    repeat' split
    all_goals rfl

theorem step {l : Label n} (h : s.Fifos) (ok : CopiesSucceed s l) (st : Step s l s') :
    s'.Fifos := by
  cases st with
  | @pass p io c s1 next at_ run eq =>
    have base : s1.Fifos := by
      rw [show s1 = (s.pass p io c).1 by rw [eq]]
      refine h.pass c fun hc => ?_
      exact (ok (by rwa [at_])).2
    exact base.same goOn_pipe
  | pipealloc read write idle => exact h.setPipe (.fresh rfl rfl rfl)
  | @pipeclose i w lock idle =>
    unfold State.pipeclose
    split
    · exact Fifos.setPipe h ⟨(h i).order, (h i).count⟩
    · exact Fifos.setPipe h ⟨(h i).order, (h i).count⟩
  | fork free =>
    refine h.same ?_
    unfold State.fork
    split
    · rfl
    · split <;> rfl
  | threadCreate free =>
    refine h.same ?_
    unfold State.threadCreate
    repeat' split
    all_goals rfl
  | threadJoin free =>
    refine h.same ?_
    unfold State.threadJoin
    repeat' split
    all_goals rfl
  | pick run =>
    refine h.same ?_
    unfold State.pick
    split <;> rfl
  | consoleintr lock run =>
    refine h.same ?_
    unfold State.consoleintr
    dsimp only
    repeat' split
    all_goals rfl
  | _ => exact h

end State.Fifos

/-- If the copies succeed, the bytes that the readers of a pipe got, followed by those in it, are
the bytes that its writers put in, in that order; and `nwrite - nread`, modulo 2^32, is at most
`PIPESIZE`. -/
theorem pipe_is_fifo [NeZero n] {s : State n} (run : Reach CopiesSucceed s) (i : Nat) :
    (s.pipe i).delivered ++ (s.pipe i).buffered = (s.pipe i).accepted ∧
    ((s.pipe i).nwrite - (s.pipe i).nread).toNat ≤ pipeSize := by
  have fifo : s.Fifos := run.invariant (I := State.Fifos) (fun i => .fresh rfl rfl rfl)
    fun _ _ _ h ok hstep => h.step ok (step_sound hstep)
  exact ⟨(fifo i).order, (fifo i).count⟩

/-- A process writes two bytes to a pipe and reads one of them back. -/
def writesThenReads : List (Label nproc) :=
  [.pick 0, .pipealloc 0 (fun _ => 0), .call 0 (.pipewrite 0 2 0), .acquire 0,
    .pass 0 ⟨some 65, true⟩, .pass 0 ⟨some 66, true⟩, .pass 0 ⟨some 0, true⟩,
    .call 0 (.piperead 0 1 none), .acquire 0, .pass 0 ⟨some 0, true⟩, .pass 0 ⟨some 0, true⟩,
    .pass 0 ⟨some 0, true⟩]

theorem pipe_is_fifo_two_bytes : ∃ s : State nproc, Reach CopiesSucceed s ∧
    (s.pipe 0).delivered = [65] ∧ (s.pipe 0).buffered = [66] := by
  obtain ⟨s, reach, delivered, accepted⟩ := exists_reach step CopiesSucceed (boot nproc)
    writesThenReads (P := fun s => (s.pipe 0).delivered = [65] ∧ (s.pipe 0).accepted = [65, 66])
    (by decide +kernel)
  have order := (pipe_is_fifo reach 0).1
  rw [delivered, accepted] at order
  exact ⟨s, reach, delivered, by simpa using order⟩

end Xv6.Kernel
