import Xv6.Msg.Sleepers

/-! The order of the messages. `msgsnd` stores at `msqid * 1024 + last_msg` and `msgrcv` reads at
`msqid * 100 + first_msg`, which agree on queue 0 for its first 100 messages. -/

namespace Xv6.Msg

open Transition Function List

variable {n : Nat} {s s' : State n} {l : Label n} {p : Fin n} {q q' : Fin msgMaxQueues}

/-- The messages that `msgrcv` would return next. -/
def State.contents (s : State n) (q : Fin msgMaxQueues) : List MsgBuf :=
  (List.range (s.queue q).msgCount).map fun i =>
    s.messages (q * 100 + ((s.queue q).firstMsg + i) % 100)

/-- Messages are stored only in queue 0, and at most 100 of them between two removals of it. -/
def SendsFew (s : State n) : Label n → Prop
  | .enter p _ => ∀ q, (s.pc p).sendsTo q → ¬s.Full q → q = 0 ∧ (s.queue q).sends < 100
  | _ => True

instance : DecidableRel (SendsFew (n := n)) := fun s l => by
  apply Label.casesOn (motive := fun l => Decidable (SendsFew s l)) l <;> intros <;>
    dsimp only [SendsFew] <;> infer_instance

/-- Besides, queues are removed as in `RemovesUnsent`. -/
def SendsWithin (s : State n) (l : Label n) : Prop := RemovesUnsent s l ∧ SendsFew s l

instance : DecidableRel (SendsWithin (n := n)) := fun _ _ => instDecidableAnd

/-- The queue `v` holds the accepted messages that it has not delivered, each at its place in the
array. -/
structure Fifo (messages : Nat → MsgBuf) (q : Fin msgMaxQueues) (v : Queue) : Prop where
  unused : v.inUse = false → v.accepted = []
  other : q ≠ 0 → v.accepted = []
  count : v.msgCount + v.delivered.length = v.accepted.length
  last : v.lastMsg = v.accepted.length
  sends : v.sends = v.accepted.length
  first : v.firstMsg = v.delivered.length % 100
  bound : v.accepted.length ≤ 100
  order : v.delivered = v.accepted.take v.delivered.length
  stored : ∀ i < v.accepted.length, v.accepted[i]? = some (messages (q * 100 + i))

namespace Fifo

variable {messages : Nat → MsgBuf} {v : Queue}

theorem start (messages : Nat → MsgBuf) (q : Fin msgMaxQueues) (count : v.msgCount = 0)
    (first : v.firstMsg = 0) (last : v.lastMsg = 0) (sends : v.sends = 0) (accepted : v.accepted = [])
    (delivered : v.delivered = []) : Fifo messages q v where
  unused _ := accepted
  other _ := accepted
  count := by rw [count, accepted, delivered, zero_add, length_nil]
  last := by rw [last, accepted, length_nil]
  sends := by rw [sends, accepted, length_nil]
  first := by rw [first, delivered, length_nil]
  bound := by simp [accepted]
  order := by rw [delivered, length_nil, take_zero]
  stored i h := by
    rw [accepted] at h
    cases h

theorem get (h : Fifo messages q v) (unused : v.inUse = false) : Fifo messages q v.get := by
  have accepted := h.unused unused
  have delivered : v.delivered = [] := by rw [h.order, accepted, take_nil]
  have count := h.count
  have last := h.last
  have sends := h.sends
  have first := h.first
  rw [accepted, delivered] at count
  rw [accepted] at last sends
  rw [delivered] at first
  exact start messages q (Nat.add_eq_zero_iff.mp count).1 first last sends rfl rfl

theorem control (h : Fifo messages q v) (cmd : Cmd) : Fifo messages q (v.control cmd) := by
  cases cmd with
  | rmid => exact start messages q rfl rfl rfl rfl rfl rfl
  | _ => exact { h with }

theorem pop (h : Fifo messages q v) (nonempty : v.msgCount ≠ 0) (issued : Nat) :
    Fifo messages q (v.pop (messages (q * 100 + v.firstMsg)) issued) := by
  have count := h.count
  have bound := h.bound
  have next : v.delivered.length < v.accepted.length := by omega
  have first : v.firstMsg = v.delivered.length := by
    rw [h.first]
    omega
  have front : v.accepted[v.delivered.length]? = some (messages (q * 100 + v.firstMsg)) := by
    rw [first]
    exact h.stored _ next
  refine { h with count := ?_, first := ?_, order := ?_ }
  · simp only [Queue.pop, length_append, length_singleton]
    omega
  · simp only [Queue.pop, length_append, length_singleton, first]
  · simp only [Queue.pop, length_append, length_singleton]
    rw [take_add_one, ← h.order, front]
    rfl

theorem push (h : Fifo messages 0 v) (used : v.inUse) (room : v.lastMsg < 100) (msg : MsgBuf)
    (issued : Nat) :
    Fifo (update messages v.lastMsg msg) 0 (v.push msg issued) where
  unused unused := by
    rw [Queue.push, used] at unused
    cases unused
  other other := (other rfl).elim
  count := by
    simp only [Queue.push, length_append, length_singleton]
    have := h.count
    omega
  last := by
    simp only [Queue.push, length_append, length_singleton, ← h.last]
    exact Nat.mod_eq_of_lt (by simp only [msgMaxSize]; omega)
  sends := by
    simp only [Queue.push, length_append, length_singleton, h.sends]
  first := h.first
  bound := by
    simp only [Queue.push, length_append, length_singleton, ← h.last]
    omega
  order := by
    have within : v.delivered.length ≤ v.accepted.length := by
      have := h.count
      omega
    show v.delivered = (v.accepted ++ [msg]).take v.delivered.length
    rw [take_append_of_le_length within]
    exact h.order
  stored i hi := by
    simp only [Queue.push, length_append, length_singleton] at hi
    show (v.accepted ++ [msg])[i]? = some (update messages v.lastMsg msg (0 * 100 + i))
    rw [Nat.zero_mul, zero_add]
    rcases Nat.lt_or_eq_of_le (Nat.le_of_lt_succ hi) with before | behind
    · rw [List.getElem?_append_left before, update_of_ne (by rw [h.last]; omega)]
      simpa using h.stored i before
    · rw [behind, List.getElem?_concat_length, h.last, update_self]

theorem congr (h : Fifo messages q v) (other : q ≠ 0) (messages' : Nat → MsgBuf) :
    Fifo messages' q v where
  __ := h
  stored i hi := by
    rw [h.other other] at hi
    cases hi

theorem contents (h : Fifo s.messages q (s.queue q)) :
    (s.queue q).delivered ++ s.contents q = (s.queue q).accepted := by
  have count := h.count
  have bound := h.bound
  have rest : s.contents q = (s.queue q).accepted.drop (s.queue q).delivered.length := by
    apply ext_getElem
    · simp only [State.contents, length_map, length_range, length_drop]
      omega
    · intro i hi _
      simp only [State.contents, length_map, length_range] at hi
      have place : ((s.queue q).firstMsg + i) % 100 = (s.queue q).delivered.length + i := by
        rw [h.first]
        omega
      have stored := h.stored ((s.queue q).delivered.length + i) (by omega)
      simp only [State.contents, List.getElem_map, List.getElem_range, List.getElem_drop, place]
      exact (List.getElem_of_getElem? stored).2.symm
  rw [rest]
  nth_rewrite 1 [h.order]
  exact List.take_append_drop ..

end Fifo

/-- Every queue is a FIFO, and the senders are on queues in use. -/
structure Ordered (s : State n) : Prop where
  senders : SendersUse s
  fifo : ∀ q, Fifo s.messages q (s.queue q)

theorem Ordered.setQueue (h : Ordered s) {v : Queue} (fifo : Fifo s.messages q v)
    (q' : Fin msgMaxQueues) : Fifo s.messages q' ((s.setQueue q v).queue q') := by
  rw [State.setQueue_queue]
  split
  next e => exact e ▸ fifo
  next => exact h.fifo q'

theorem Ordered.step (h : Ordered s) (ok : SendsWithin s l) (st : Step s l s') : Ordered s' where
  senders := h.senders.step ok.1 st
  fifo := by
    cases st with
    | ret out | sends free id used | receives free id used | sleeps at_ full | woken at_ | none =>
      exact h.fifo
    | @get p q free found => exact h.setQueue ((h.fifo q).get (findUnused_some found))
    | @takes c p q msgsz msgtyp issued at_ some => exact h.setQueue ((h.fifo q).pop some issued)
    | @control p msqid q cmd copy r free id used => exact h.setQueue ((h.fifo q).control cmd)
    | @accepts c p q msg nowait issued at_ room =>
      have sends : (s.pc p).sendsTo q := by
        rw [at_]
        exact decide_eq_true rfl
      obtain ⟨rfl, few⟩ := ok.2 q sends room
      have last : (s.queue 0).lastMsg < 100 := by
        rwa [(h.fifo 0).last, ← (h.fifo 0).sends]
      intro q'
      show Fifo (update s.messages _ msg) q' ((s.setQueue 0 _).queue q')
      rw [State.setQueue_queue, Fin.val_zero, Nat.zero_mul, zero_add]
      split
      next e => exact e ▸ (h.fifo 0).push (h.senders p 0 sends) last msg issued
      next other => exact (h.fifo q').congr other _

theorem ordered_of_reach (run : Reach step SendsWithin (msginit n) s) : Ordered s :=
  run.invariant (I := Ordered)
    ⟨(fun _ _ h => by cases h), fun q => .start _ q rfl rfl rfl rfl rfl rfl⟩
    fun _ _ _ h ok hstep => h.step ok (step_sound hstep)

/-- The queue that a step works on. -/
def State.target (s : State n) : Label n → Option (Fin msgMaxQueues)
  | .msgget _ => s.findUnused
  | .msgsnd _ msqid _ _ _ | .msgrcv _ msqid _ _ _ | .msgctl _ msqid _ _ => queueOf msqid
  | .enter p _ => (s.pc p).call.map Prod.fst
  | .kill _ => none

theorem Step.queue_of_target (st : Step s l s') (other : s.target l ≠ some q) :
    s'.queue q = s.queue q := by
  have turn := st.turn q
  generalize s'.queue q = v at turn ⊢
  cases turn with
  | same => rfl
  | get found | control found => exact (other found).elim
  | push at_ | pop at_ =>
    rw [State.target, at_] at other
    exact (other rfl).elim

/-- From the state that `msginit` builds, if messages are stored only in queue 0, at most 100 since
it was given out, and queues are removed only when no process is in `msgsnd` on them: what a queue
has delivered, followed by what it delivers next, is what it has accepted; and a step on another
queue changes neither. -/
theorem queue_is_fifo (run : Reach step SendsWithin (msginit n) s) (q : Fin msgMaxQueues) :
    (s.queue q).delivered ++ s.contents q = (s.queue q).accepted ∧
    ∀ l s', SendsWithin s l → step l s = some s' → s.target l ≠ some q →
      s'.queue q = s.queue q ∧ s'.contents q = s.contents q := by
  have fifo := ((ordered_of_reach run).fifo q).contents
  refine ⟨fifo, fun l s' ok hstep other => ?_⟩
  have same := (step_sound hstep).queue_of_target other
  have after := ((ordered_of_reach (.next run ok hstep)).fifo q).contents
  rw [same, ← fifo] at after
  exact ⟨same, append_cancel_left after⟩

def sendsTwice : List (Label 1) :=
  [.msgget 0, .msgsnd 0 0 (some (message 7)) 4 0, .enter 0 true,
    .msgsnd 0 0 (some (message 8)) 4 0, .enter 0 true, .msgrcv 0 0 4 0 0, .enter 0 true]

theorem queue_is_fifo_twice : ∃ s : State 1, Reach step SendsWithin (msginit 1) s ∧
    (s.queue 0).delivered.map MsgBuf.mtype = [7] ∧
    (s.queue 0).delivered ++ s.contents 0 = (s.queue 0).accepted := by
  obtain ⟨s, reach, delivered⟩ := exists_reach step SendsWithin (msginit 1) sendsTwice
    (P := fun s : State 1 => (s.queue 0).delivered.map MsgBuf.mtype = [7]) (by decide +kernel)
  exact ⟨s, reach, delivered, (queue_is_fifo reach 0).1⟩

def sendsToSecond : List (Label 1) :=
  [.msgget 0, .msgget 0, .msgsnd 0 1 (some (message 7)) 4 0, .enter 0 true, .msgrcv 0 1 4 0 0,
    .enter 0 true]

/-- What queue 1 delivers is not what it accepted. -/
theorem second_queue_not_fifo : ∃ s : State 1, Reach step (fun _ _ => True) (msginit 1) s ∧
    (s.queue 1).accepted.map MsgBuf.mtype = [7] ∧ (s.queue 1).delivered.map MsgBuf.mtype = [0] :=
  exists_reach step (fun _ _ => True) (msginit 1) sendsToSecond
    (P := fun s : State 1 => (s.queue 1).accepted.map MsgBuf.mtype = [7] ∧
      (s.queue 1).delivered.map MsgBuf.mtype = [0]) (by decide +kernel)

end Xv6.Msg
