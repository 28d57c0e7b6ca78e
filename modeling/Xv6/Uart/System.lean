import Xv6.Lib.Monitor
import Xv6.Lib.Ring
import Xv6.Lib.Run

/-! The transmit buffer of the UART. A step is a section of `uart_tx_lock`. Each bit of a list is
the answer to one `ReadReg(LSR) & LSR_TX_IDLE`; after the last the transmitter is busy. -/

namespace Xv6.Uart

open Function UInt64

abbrev txBufSize : Nat := 32

instance : NeZero txBufSize := ⟨by decide⟩

/-- Where a process is in `uartputc`: outside of it, before `acquire`, or in the loop around
`sleep`. -/
inductive Pc
  | idle
  | enter (c : UInt8)
  | wait (c : UInt8)
  deriving DecidableEq, Repr

/-- `spinning`: a process found `panicked` set and keeps `uart_tx_lock` for ever. `sent` and
`inserted` record the bytes written to `THR` and those that `uartputc` put into the buffer. -/
structure State (P : Type) where
  txBuf : Fin txBufSize → UInt8
  txW : UInt64
  txR : UInt64
  panicked : Bool
  spinning : Bool
  pc : P → Pc
  asleep : P → Bool
  sent : List UInt8
  inserted : List UInt8

namespace State

variable {P : Type} (s : State P)

def Full : Prop := s.txW = s.txR + UInt64.ofNat txBufSize

instance : Decidable s.Full := inferInstanceAs (Decidable (_ = _))

/-- One character goes from the buffer to the transmitter, with `wakeup(&uart_tx_r)`. -/
def send : State P :=
  let c := s.txBuf (Ring.cell txBufSize s.txR.toNat)
  { s with txR := s.txR + 1, asleep := fun _ => false, sent := s.sent ++ [c] }

def uartstart : List Bool → State P → State P
  | [], s => s
  | ready :: lsr, s =>
    if s.txW = s.txR then s
    else if ready then uartstart lsr s.send
    else s

def store (c : UInt8) : State P :=
  { s with
    txBuf := update s.txBuf (Ring.cell txBufSize s.txW.toNat) c
    txW := s.txW + 1
    inserted := s.inserted ++ [c] }

variable [DecidableEq P]

def setPc (p : P) (pc : Pc) : State P := { s with pc := update s.pc p pc }

def putcLoop (p : P) (c : UInt8) (lsr : List Bool) : State P :=
  if s.Full then { s.setPc p (.wait c) with asleep := update s.asleep p true }
  else ((s.store c).uartstart lsr).setPc p .idle

end State

/-- `call` is a call of `uartputc`; `run` takes the process through a section, `intr` is `uartintr`,
and `kill` makes a sleeper runnable. -/
inductive Label (P : Type)
  | call (p : P) (c : UInt8)
  | run (p : P) (lsr : List Bool)
  | intr (lsr : List Bool)
  | panic
  | kill (p : P)

variable {P : Type} [DecidableEq P]

def step : Label P → State P → Option (State P)
  | .call p c, s => if s.pc p = .idle then some (s.setPc p (.enter c)) else none
  | .run p lsr, s =>
    if s.spinning = false ∧ s.asleep p = false then
      match s.pc p with
      | .idle => none
      | .enter c =>
        if s.panicked then some { s with spinning := true } else some (s.putcLoop p c lsr)
      | .wait c => some (s.putcLoop p c lsr)
    else none
  | .intr lsr, s => if s.spinning then none else some (s.uartstart lsr)
  | .panic, s => some { s with panicked := true }
  | .kill p, s => some { s with asleep := update s.asleep p false }

def boot : State P where
  txBuf := fun _ => 0
  txW := 0
  txR := 0
  panicked := false
  spinning := false
  pc := fun _ => .idle
  asleep := fun _ => false
  sent := []
  inserted := []

abbrev Reach : State P → Prop := Transition.Reach step (fun _ _ => True) boot

variable {s s' : State P}

/-- Whoever sleeps in `uartputc` sees a full buffer. -/
def Rested (s : State P) : Prop := Monitor.Justified s.asleep fun _ => s.Full

omit [DecidableEq P] in
theorem Rested.uartstart : ∀ (lsr : List Bool) {s : State P}, Rested s → Rested (s.uartstart lsr)
  | [], _, h => h
  | ready :: lsr, s, h => by
    unfold State.uartstart
    split
    · exact h
    split
    · exact Rested.uartstart lsr (Monitor.Justified.none : Rested s.send)
    · exact h

theorem Rested.putcLoop (h : Rested s) (p : P) (c : UInt8) (lsr : List Bool) :
    Rested (s.putcLoop p c lsr) := by
  unfold State.putcLoop
  split
  next full => exact h.sleep (p := p) full
  next room =>
    -- nobody sleeps while there is room, so that the store takes no reason away
    have stored : Rested (s.store c) := fun q sleeps => absurd (h q sleeps) room
    exact stored.uartstart lsr

theorem step_run (hs : step (.run p lsr) s = some s') :
    s' = { s with spinning := true } ∨ ∃ c, s' = s.putcLoop p c lsr := by
  obtain ⟨-, hs⟩ := Option.ite_none_right_eq_some.mp hs
  split at hs
  · cases hs
  · split at hs <;> cases hs
    · exact .inl rfl
    · exact .inr ⟨_, rfl⟩
  · cases hs
    exact .inr ⟨_, rfl⟩

theorem Rested.step (h : Rested s) (hs : step l s = some s') : Rested s' := by
  cases l with
  | call p c =>
    obtain ⟨-, rfl⟩ := Transition.guarded hs
    exact h
  | run p lsr =>
    obtain rfl | ⟨c, rfl⟩ := step_run hs
    · exact h
    · exact h.putcLoop p c lsr
  | intr lsr =>
    obtain ⟨-, hs⟩ := Option.ite_none_left_eq_some.mp hs
    cases hs
    exact h.uartstart lsr
  | panic =>
    cases hs
    exact h
  | kill p =>
    cases hs
    exact h.wake p

theorem Rested.reach (run : Reach s) : Rested s :=
  run.invariant (I := Rested) Monitor.Justified.none fun _ _ _ h _ => h.step

section Fifo

/-- The counters count the bytes, and the buffer has those that were not sent. -/
structure Fifo (s : State P) : Prop where
  txW : s.txW = UInt64.ofNat s.inserted.length
  txR : s.txR = UInt64.ofNat s.sent.length
  le : s.sent.length ≤ s.inserted.length
  room : s.inserted.length ≤ s.sent.length + txBufSize
  bytes : s.sent ++ Ring.contents s.txBuf s.sent.length (s.inserted.length - s.sent.length) =
    s.inserted

theorem cell_ofNat (n : Nat) :
    Ring.cell txBufSize (UInt64.ofNat n).toNat = Ring.cell txBufSize n := by
  rw [toNat_ofNat']
  exact Ring.cell_mod (by decide) n

omit [DecidableEq P]

theorem Fifo.send (h : Fifo s) (more : s.txW ≠ s.txR) : Fifo s.send := by
  have lt : s.sent.length < s.inserted.length := by
    refine h.le.lt_of_ne fun same => more ?_
    rw [h.txW, h.txR, same]
  obtain ⟨n, hn⟩ := Nat.exists_eq_add_one.mpr (Nat.sub_pos_of_lt lt)
  have bytes := h.bytes
  rw [hn, Ring.contents_pop, List.append_cons] at bytes
  have length : s.send.sent.length = s.sent.length + 1 := List.length_append
  refine ⟨h.txW, ?_, by rwa [length], ?_, ?_⟩
  · rw [length, ofNat_add, ← h.txR]
    rfl
  · have := h.room
    rw [length]
    show s.inserted.length ≤ _
    omega
  · have left : s.send.inserted.length - (s.sent.length + 1) = n := by
      show s.inserted.length - _ = n
      omega
    rw [length, left]
    show s.sent ++ [s.txBuf (Ring.cell _ s.txR.toNat)] ++ _ = s.inserted
    rwa [h.txR, cell_ofNat]

theorem Fifo.uartstart : ∀ (lsr : List Bool) {s : State P}, Fifo s → Fifo (s.uartstart lsr)
  | [], _, h => h
  | ready :: lsr, s, h => by
    unfold State.uartstart
    split
    · exact h
    next more =>
      split
      · exact Fifo.uartstart lsr (h.send more)
      · exact h

theorem Fifo.store (h : Fifo s) (room : ¬s.Full) (c : UInt8) : Fifo (s.store c) := by
  have lt : s.inserted.length - s.sent.length < txBufSize := by
    have le := h.room
    refine lt_of_le_of_ne (by omega) fun full => room ?_
    show s.txW = s.txR + _
    rw [h.txW, h.txR, ← ofNat_add, ← full, Nat.add_sub_cancel' h.le]
  have length : (s.store c).inserted.length = s.inserted.length + 1 := List.length_append
  have le := h.le
  refine ⟨?_, h.txR, ?_, ?_, ?_⟩
  · rw [length, ofNat_add, ← h.txW]
    rfl
  · rw [length]
    exact Nat.le_succ_of_le h.le
  · rw [length]
    show _ ≤ s.sent.length + _
    omega
  · have at_ : Ring.cell txBufSize s.txW.toNat =
        Ring.cell txBufSize (s.sent.length + (s.inserted.length - s.sent.length)) := by
      rw [h.txW, cell_ofNat, Nat.add_sub_cancel' h.le]
    rw [length]
    show s.sent ++ Ring.contents (update s.txBuf (Ring.cell _ s.txW.toNat) c)
      s.sent.length (s.inserted.length + 1 - s.sent.length) = s.inserted ++ [c]
    rw [at_, Nat.sub_add_comm h.le, Ring.contents_push _ _ _ _ lt, ← List.append_assoc, h.bytes]

end Fifo

theorem Fifo.putcLoop (h : Fifo s) (p : P) (c : UInt8) (lsr : List Bool) :
    Fifo (s.putcLoop p c lsr) := by
  unfold State.putcLoop
  split
  next => exact ⟨h.txW, h.txR, h.le, h.room, h.bytes⟩
  next room =>
    have sent := (h.store room c).uartstart lsr
    exact ⟨sent.txW, sent.txR, sent.le, sent.room, sent.bytes⟩

theorem Fifo.step (h : Fifo s) (hs : step l s = some s') : Fifo s' := by
  cases l with
  | run p lsr =>
    obtain rfl | ⟨c, rfl⟩ := step_run hs
    · exact ⟨h.txW, h.txR, h.le, h.room, h.bytes⟩
    · exact h.putcLoop p c lsr
  | intr lsr =>
    obtain ⟨-, hs⟩ := Option.ite_none_left_eq_some.mp hs
    cases hs
    exact h.uartstart lsr
  | call p c =>
    obtain ⟨-, rfl⟩ := Transition.guarded hs
    exact ⟨h.txW, h.txR, h.le, h.room, h.bytes⟩
  | panic | kill =>
    cases hs
    exact ⟨h.txW, h.txR, h.le, h.room, h.bytes⟩

/-- In every run the bytes that `uartstart` has sent, then those from `uart_tx_r` to `uart_tx_w`,
are the bytes that `uartputc` has put in, in that order; and at most `UART_TX_BUF_SIZE` are in the
buffer. -/
theorem uart_fifo (run : Reach s) :
    s.sent ++ Ring.contents s.txBuf s.txR.toNat (s.txW - s.txR).toNat = s.inserted ∧
      (s.txW - s.txR).toNat ≤ txBufSize := by
  have h : Fifo s := run.invariant (I := Fifo)
    ⟨rfl, rfl, le_rfl, Nat.zero_le _, rfl⟩ fun _ _ _ h _ => h.step
  have count : (s.txW - s.txR).toNat = s.inserted.length - s.sent.length := by
    have room := h.room
    rw [h.txW, h.txR, ← ofNat_sub h.le, toNat_ofNat_of_lt']
    exact lt_of_le_of_lt (show _ ≤ txBufSize by omega) (by decide)
  have room := h.room
  refine ⟨?_, by omega⟩
  rw [count, h.txR, toNat_ofNat', Ring.contents_mod (by decide)]
  exact h.bytes

/-- Two processes write; the transmitter takes the first byte only. -/
theorem uart_fifo_first : ∃ s : State (Fin 2), Reach s ∧
    (s.sent = [104] ∧ s.inserted = [104, 105]) ∧
    s.sent ++ Ring.contents s.txBuf s.txR.toNat (s.txW - s.txR).toNat = s.inserted := by
  obtain ⟨s, run, facts⟩ := Transition.exists_reach step (fun _ _ => True) boot
    [.call 0 104, .call 1 105, .run 0 [false], .intr [], .run 1 [true, false], .panic]
    (P := fun s : State (Fin 2) => s.sent = [104] ∧ s.inserted = [104, 105]) (by decide +kernel)
  exact ⟨s, run, facts, (uart_fifo run).1⟩

end Xv6.Uart
