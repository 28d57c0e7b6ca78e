import Xv6.Msg.System

/-! What a removal leaves behind. A queue can be removed while another process is past its test of
`in_use` or asleep in `msgsnd`; and neither `msgget` nor a removal sets the capacity of a queue. -/

namespace Xv6.Msg

open Transition Function

variable {n : Nat} {s s' : State n} {l : Label n} {p p' : Fin n} {q q' : Fin msgMaxQueues}
  {c : Fin msgMaxQueues × Nat}

/-- How the calls that processes are in change: one process may start a call on a queue in use, and
one may return. -/
theorem Step.call (st : Step s l s') (h : (s'.pc p).call = some c) :
    (s.pc p).call = some c ∨
    (s.queue c.1).inUse ∧ c.2 = (s.queue c.1).removals ∧ s'.queue = s.queue := by
  have move := st.move p
  generalize s'.pc p = pc at move h
  cases move with
  | same => exact .inl h
  | ret => cases h
  | sends used same | receives used same =>
    cases h
    exact .inr ⟨used, rfl, same⟩
  | sleeps at_ | woken at_ =>
    rw [at_]
    exact .inl h

/-- A queue is removed only when no process is in a call on it. -/
def RemovesIdle (s : State n) : Label n → Prop
  | .msgctl _ msqid .rmid _ => ∀ q ∈ queueOf msqid, ∀ p, (s.pc p).uses q = false
  | _ => True

instance : DecidableRel (RemovesIdle (n := n)) := fun s l => by
  rcases l with _ | _ | _ | _ | ⟨_, _, cmd, _⟩ | _
  case msgctl => cases cmd <;> dsimp only [RemovesIdle] <;> infer_instance
  all_goals exact .isTrue trivial

/-- The calls in progress are on the queues that they were made for, and a queue that is not in use
is empty. -/
structure Sound (s : State n) : Prop where
  call : ∀ p c, (s.pc p).call = some c → (s.queue c.1).inUse ∧ c.2 = (s.queue c.1).removals
  empty : ∀ q, (s.queue q).inUse = false → (s.queue q).msgCount = 0
  late : ∀ q, (s.queue q).late = false

theorem findUnused_some (h : s.findUnused = some q) : (s.queue q).inUse = false := by
  simpa using List.find?_some h

theorem uses_eq_false {pc : Pc} (h : pc.uses q = false) (hc : pc.call = some c) : c.1 ≠ q := by
  rintro rfl
  simp [Pc.uses, hc] at h

theorem Sound.sending (h : Sound s) (at_ : s.pc p = .sending q msg nowait issued) :
    (s.queue q).inUse ∧ issued = (s.queue q).removals := h.call p (q, issued) (by rw [at_]; rfl)

theorem Sound.receiving (h : Sound s) (at_ : s.pc p = .receiving q msgsz msgtyp issued) :
    (s.queue q).inUse ∧ issued = (s.queue q).removals := h.call p (q, issued) (by rw [at_]; rfl)

theorem Sound.step (h : Sound s) (ok : RemovesIdle s l) (st : Step s l s') : Sound s' where
  call p c hc := by
    rcases st.call hc with before | ⟨used, issued, same⟩
    · obtain ⟨used, issued⟩ := h.call p c before
      have turn := st.turn c.1
      generalize s'.queue c.1 = v at turn ⊢
      cases turn with
      | same | push | pop => exact ⟨used, issued⟩
      | get found => exact ⟨rfl, issued⟩
      | @control _ _ cmd _ id _ =>
        cases cmd with
        | rmid => exact (uses_eq_false (ok c.1 id p) before rfl).elim
        | _ => exact ⟨used, issued⟩
    · rw [same]
      exact ⟨used, issued⟩
  empty q hq := by
    have turn := st.turn q
    generalize s'.queue q = v at turn hq ⊢
    cases turn with
    | same => exact h.empty q hq
    | get found => cases hq
    | push at_ room =>
      rw [Queue.push, (h.sending at_).1] at hq
      cases hq
    | pop at_ some =>
      rw [Queue.pop, (h.receiving at_).1] at hq
      cases hq
    | @control _ _ cmd _ id used =>
      cases cmd with
      | rmid => rfl
      | _ => exact h.empty q hq
  late q := by
    have turn := st.turn q
    generalize s'.queue q = v at turn ⊢
    cases turn with
    | same | get => exact h.late q
    | push at_ room => simp [Queue.push, h.late q, (h.sending at_).2]
    | pop at_ some => simp [Queue.pop, h.late q, (h.receiving at_).2]
    | @control _ _ cmd _ id used => cases cmd <;> exact h.late q

theorem Sound.start (n : Nat) (size : Int) : Sound (start n size) where
  call p c hc := by cases hc
  empty _ _ := rfl
  late _ := rfl

theorem sound_of_reach (run : Reach step RemovesIdle (start n size) s) : Sound s :=
  run.invariant (I := Sound) (.start n size) fun _ _ _ h ok hstep => h.step ok (step_sound hstep)

theorem msgget_step (found : s.findUnused = some q) (h : step (.msgget p) s = some s') :
    s'.pc p = .user (.val q) ∧ s'.queue q = (s.queue q).get := by
  obtain ⟨free, rfl⟩ := guarded h
  rw [State.msgget, found]
  exact ⟨update_self .., update_self ..⟩

/-- If a queue is removed only when no process is in a call on it, no `msgsnd` or `msgrcv` takes
effect after a removal that came after its start, and a queue not in use, or just given out, has no
messages. -/
theorem removed_queue_is_dead {size : Int} (run : Reach step RemovesIdle (start n size) s)
    (q : Fin msgMaxQueues) :
    (s.queue q).late = false ∧ ((s.queue q).inUse = false → (s.queue q).msgCount = 0) ∧
    ∀ p s', s.findUnused = some q → step (.msgget p) s = some s' →
      s'.pc p = .user (.val q) ∧ (s'.queue q).msgCount = 0 := by
  have sound := sound_of_reach run
  refine ⟨sound.late q, sound.empty q, fun p s' found h => ?_⟩
  obtain ⟨pc, queue⟩ := msgget_step found h
  refine ⟨pc, ?_⟩
  rw [queue]
  exact sound.empty q (findUnused_some found)

def message (mtype : Int64) : MsgBuf := ⟨mtype, fun _ => 0⟩

/-- A process sends a message, and the queue is removed and given out again. -/
def sendsThenRemoves : List (Label 1) :=
  [.msgget 0, .msgsnd 0 0 (some (message 7)) 4 0, .enter 0 true, .msgctl 0 0 .rmid true,
    .msgget 0]

theorem removed_queue_is_dead_sent : ∃ s : State 1,
    Reach step RemovesIdle (start 1 msgMaxSize) s ∧ (s.queue 0).removals = 1 ∧
    (s.queue 0).inUse = true ∧ (s.queue 0).late = false := by
  obtain ⟨s, reach, removals, used⟩ := exists_reach step RemovesIdle (start 1 msgMaxSize)
    sendsThenRemoves (P := fun s : State 1 => (s.queue 0).removals = 1 ∧ (s.queue 0).inUse = true)
    (by decide +kernel)
  exact ⟨s, reach, removals, used, (removed_queue_is_dead reach 0).1⟩

/-- A queue is removed between a sender's test of `in_use` and its lock. -/
def removesUnderSender : List (Label 2) :=
  [.msgget 0, .msgsnd 0 0 (some (message 7)) 4 0, .msgctl 1 0 .rmid true, .enter 0 true]

/-- The message gets into the removed queue, which `msgget` gives out next. -/
theorem removed_queue_gets_message : ∃ s : State 2,
    Reach step (fun _ _ => True) (msginit 2) s ∧ (s.queue 0).late = true ∧
    (s.queue 0).inUse = false ∧ (s.queue 0).msgCount = 1 ∧ s.findUnused = some 0 :=
  exists_reach step (fun _ _ => True) (msginit 2) removesUnderSender
    (P := fun s : State 2 => (s.queue 0).late = true ∧
      (s.queue 0).inUse = false ∧ (s.queue 0).msgCount = 1 ∧ s.findUnused = some 0)
    (by decide +kernel)

/-- The size of a queue is what the last `IPC_SET` made it, whatever came after that. -/
theorem size_of_reach (run : Reach step RemovesIdle (boot n) s) (q : Fin msgMaxQueues) :
    (s.queue q).queueSize = (s.queue q).set.elim 0 fun v => v.toInt32.toInt := by
  refine run.invariant (I := fun s : State n => ∀ q, (s.queue q).queueSize =
    (s.queue q).set.elim 0 fun v => v.toInt32.toInt) (fun _ => rfl) (fun s l s' h _ hstep q => ?_) q
  have turn := (step_sound hstep).turn q
  generalize s'.queue q = v at turn ⊢
  cases turn with
  | same | get found | push at_ room | pop at_ some => exact h q
  | @control _ _ cmd _ id used =>
    cases cmd with
    | set qbytes => rfl
    | _ => exact h q

theorem msgsnd_room (free : s.Free p) (used : (s.queue q).inUse) (room : ¬s.Full q) (m : MsgBuf)
    {msgsz : Int} (nonneg : 0 ≤ msgsz) (small : msgsz ≤ msgMaxSize) (flags : UInt32) (c : Bool) :
    ∃ s₁ s₂, step (.msgsnd p q (some m) msgsz flags) s = some s₁ ∧
      step (.enter p c) s₁ = some s₂ ∧ s₂.pc p = .user (.val 0) ∧
      (s₂.queue q).accepted = (s.queue q).accepted ++ [m] := by
  have id : queueOf (q : Nat) = some q := by
    rw [queueOf, dif_pos (by omega)]
    rfl
  have valid : ¬(msgsz < 0 ∨ msgMaxSize < msgsz) := by omega
  let s₁ := s.setPc p (.sending q m (flags &&& ipcNowait ≠ 0) (s.queue q).removals)
  refine ⟨s₁, ((s₁.accept q m (s.queue q).removals).wakeup q).ret p (.val 0), ?_, ?_, ?_, ?_⟩
  · rw [step, if_pos free, State.msgsnd, id]
    simp only [used, not_true_eq_false, if_false, if_neg valid]
    rfl
  · rw [step, show s₁.pc p = _ from update_self ..]
    simp only [State.send]
    rw [if_neg (show ¬s₁.Full q from room)]
  · exact update_self ..
  · show ((s₁.setQueue q _).queue q).accepted = _
    rw [State.setQueue_queue, if_pos rfl]
    rfl

theorem msgsnd_full (free : s.Free p) (used : (s.queue q).inUse) (full : s.Full q) {m : MsgBuf}
    {msgsz : Int} {s₁ s₂ : State n} (sent : step (.msgsnd p q (some m) msgsz flags) s = some s₁)
    (entered : step (.enter p copy) s₁ = some s₂) : s₂.pc p ≠ .user (.val 0) := by
  intro back
  obtain ⟨-, rfl⟩ := guarded sent
  have id : queueOf (q : Nat) = some q := by
    rw [queueOf, dif_pos (by omega)]
    rfl
  simp only [State.msgsnd, id, used, not_true_eq_false, if_false] at entered
  split at entered
  · rw [step, show (s.ret p .fail).pc p = _ from update_self ..] at entered
    cases entered
  · rw [step, show (s.setPc p _).pc p = _ from update_self ..] at entered
    simp only [State.send, if_pos (show (s.setPc p _).Full q from full), Option.some.injEq] at entered
    subst entered
    split at back
    · cases (update_self ..).symm.trans back
    · cases (update_self ..).symm.trans back

/-- From the state that `main` boots into, if queues are removed only when no process is in a call on
them, `msgget` gives out an empty queue. It has the default capacity iff the last `IPC_SET` on this
slot set that, and takes a valid message at once iff that set a positive one. -/
theorem fresh_queue_takes_message (run : Reach step RemovesIdle (boot n) s)
    (found : s.findUnused = some q) (get : step (.msgget p) s = some s') :
    s'.pc p = .user (.val q) ∧ (s'.queue q).msgCount = 0 ∧
    ((s'.queue q).queueSize = msgMaxSize ↔ (s.queue q).set = some (UInt32.ofNat msgMaxSize)) ∧
    ((∀ (m : MsgBuf) (msgsz : Int) (flags : UInt32) (c : Bool), 0 ≤ msgsz → msgsz ≤ msgMaxSize →
      ∃ s₁ s₂, step (.msgsnd p q (some m) msgsz flags) s' = some s₁ ∧
        step (.enter p c) s₁ = some s₂ ∧ s₂.pc p = .user (.val 0) ∧
        (s₂.queue q).accepted = [m]) ↔ ∃ v, (s.queue q).set = some v ∧ 0 < v.toInt32.toInt) := by
  obtain ⟨pc, queue⟩ := msgget_step found get
  have count : (s'.queue q).msgCount = 0 := by
    rw [queue]
    exact (sound_of_reach run).empty q (findUnused_some found)
  have size : (s'.queue q).queueSize = (s.queue q).set.elim 0 fun v => v.toInt32.toInt := by
    rw [queue]
    exact size_of_reach run q
  have used : (s'.queue q).inUse = true := by
    rw [queue]
    rfl
  have full : s'.Full q ↔ (s.queue q).set.elim 0 (fun v => v.toInt32.toInt) ≤ 0 := by
    rw [State.Full, count, size]
    rfl
  refine ⟨pc, count, ?_, fun takes => ?_, ?_⟩
  · rw [size]
    cases (s.queue q).set with
    | none => exact ⟨nofun, nofun⟩
    | some v =>
      refine ⟨fun eq => ?_, fun eq => by cases eq; rfl⟩
      have same : v.toInt32 = (UInt32.ofNat msgMaxSize).toInt32 := Int32.toInt_inj.mp eq
      exact congrArg some (congrArg Int32.toUInt32 same)
  · obtain ⟨s₁, s₂, sent, entered, back, -⟩ := takes ⟨0, fun _ => 0⟩ 0 0 true le_rfl (by decide)
    have room : ¬s'.Full q := fun full => msgsnd_full ⟨_, pc⟩ used full sent entered back
    rw [full, not_le] at room
    cases set : (s.queue q).set with
    | none =>
      rw [set] at room
      cases room
    | some v =>
      rw [set] at room
      exact ⟨v, rfl, room⟩
  · rintro ⟨v, set, pos⟩ m msgsz flags c nonneg small
    have room : ¬s'.Full q := by
      rwa [full, set, not_le]
    obtain ⟨s₁, s₂, sent, entered, back, accepted⟩ :=
      msgsnd_room ⟨_, pc⟩ used room m nonneg small flags c
    refine ⟨s₁, s₂, sent, entered, back, ?_⟩
    rw [accepted, queue]
    rfl

/-- A queue gets the default capacity and a message and is removed. -/
def setsThenRemoves : List (Label 1) :=
  [.msgget 0, .msgctl 0 0 (.set 1024) true, .msgsnd 0 0 (some (message 7)) 4 0, .enter 0 true,
    .msgctl 0 0 .rmid true]

theorem fresh_queue_takes_message_again : ∃ s s' s₁ s₂ : State 1,
    Reach step RemovesIdle (boot 1) s ∧ (s.queue 0).removals = 1 ∧
    step (.msgget 0) s = some s' ∧ (s'.queue 0).queueSize = msgMaxSize ∧
    step (.msgsnd 0 0 (some (message 8)) 4 0) s' = some s₁ ∧
    step (.enter 0 true) s₁ = some s₂ ∧ s₂.pc 0 = .user (.val 0) := by
  obtain ⟨s, reach, removals, set, found, free⟩ := exists_reach step RemovesIdle (boot 1)
    setsThenRemoves (P := fun s : State 1 => (s.queue 0).removals = 1 ∧
      (s.queue 0).set = some 1024 ∧ s.findUnused = some 0 ∧ s.Free 0) (by decide +kernel)
  have get : step (.msgget 0) s = some (s.msgget 0) := if_pos free
  obtain ⟨-, -, size, takes⟩ := fresh_queue_takes_message reach found get
  obtain ⟨s₁, s₂, sent, entered, back, -⟩ := takes.mpr ⟨1024, set, by decide⟩ (message 8) 4 0 true
    (by decide) (by decide)
  exact ⟨s, _, s₁, s₂, reach, removals, get, size.mpr set, sent, entered, back⟩

/-- `main` boots without `msginit`, and the first queue takes no message: its sender sleeps. -/
theorem boot_queue_blocks : ∃ s : State 1, Reach step (fun _ _ => True) (boot 1) s ∧
    (s.queue 0).inUse = true ∧ (s.queue 0).msgCount = 0 ∧ (s.queue 0).queueSize = 0 ∧
    (s.pc 0).sleepsOn 0 = true :=
  exists_reach step (fun _ _ => True) (boot 1)
    [.msgget 0, .msgsnd 0 0 (some (message 7)) 4 0, .enter 0 true]
    (P := fun s : State 1 => (s.queue 0).inUse = true ∧
      (s.queue 0).msgCount = 0 ∧ (s.queue 0).queueSize = 0 ∧ (s.pc 0).sleepsOn 0 = true)
    (by decide +kernel)

end Xv6.Msg
