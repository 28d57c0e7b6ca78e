import Xv6.Msg.Removal

/-! The processes asleep in `msgsnd`. Only `msgsnd` wakes them: `msgrcv` and `IPC_SET` make room,
and `IPC_RMID` takes the queue away, without a `wakeup`. -/

namespace Xv6.Msg

open Transition

variable {n : Nat} {s s' : State n} {l : Label n} {p : Fin n} {q : Fin msgMaxQueues}

/-- A queue is removed only when no process is in `msgsnd` on it. -/
def RemovesUnsent (s : State n) : Label n → Prop
  | .msgctl _ msqid .rmid _ => ∀ q ∈ queueOf msqid, ∀ p, (s.pc p).sendsTo q = false
  | _ => True

instance : DecidableRel (RemovesUnsent (n := n)) := fun s l => by
  rcases l with _ | _ | _ | _ | ⟨_, _, cmd, _⟩ | _
  case msgctl p q c =>
    apply Cmd.casesOn (motive := fun cmd => Decidable (RemovesUnsent s (.msgctl p q cmd c))) cmd <;>
      intros <;> dsimp only [RemovesUnsent] <;> infer_instance
  all_goals exact .isTrue trivial

def SendersUse (s : State n) : Prop := ∀ p q, (s.pc p).sendsTo q → (s.queue q).inUse

theorem Step.sendsTo (st : Step s l s') (h : (s'.pc p).sendsTo q) :
    (s.pc p).sendsTo q ∨ (s.queue q).inUse ∧ s'.queue = s.queue := by
  have move := st.move p
  generalize s'.pc p = pc at move h
  cases move with
  | same => exact .inl h
  | ret | receives used same => cases h
  | sends used same =>
    cases of_decide_eq_true h
    exact .inr ⟨used, same⟩
  | sleeps at_ | woken at_ =>
    rw [at_]
    exact .inl h

theorem SendersUse.step (h : SendersUse s) (ok : RemovesUnsent s l) (st : Step s l s') :
    SendersUse s' := by
  intro p q sends
  rcases st.sendsTo sends with before | ⟨used, same⟩
  · have used := h p q before
    have turn := st.turn q
    generalize s'.queue q = v at turn ⊢
    cases turn with
    | same | push at_ room | pop at_ some => exact used
    | get found => rfl
    | @control _ _ cmd _ id _ =>
      cases cmd with
      | rmid =>
        rw [ok q id p] at before
        cases before
      | _ => exact used
  · rwa [same]

/-- No receiver enters, and no `IPC_SET` is for, a queue that a process sleeps on, and none is removed
that a process is in `msgsnd` on. -/
def KeepsReason (s : State n) (l : Label n) : Prop :=
  RemovesUnsent s l ∧
  match l with
  | .enter p _ => ∀ c ∈ (s.pc p).call, (s.pc p).sendsTo c.1 ∨ ∀ p', (s.pc p').sleepsOn c.1 = false
  | .msgctl _ msqid (.set _) _ => ∀ q ∈ queueOf msqid, ∀ p, (s.pc p).sleepsOn q = false
  | _ => True

instance : DecidableRel (KeepsReason (n := n)) := fun s l =>
  @instDecidableAnd _ _ inferInstance <|
    match l with
    | .enter p _ => inferInstanceAs (Decidable (∀ c ∈ (s.pc p).call,
        (s.pc p).sendsTo c.1 ∨ ∀ p', (s.pc p').sleepsOn c.1 = false))
    | .msgctl _ msqid (.set _) _ =>
      inferInstanceAs (Decidable (∀ q ∈ queueOf msqid, ∀ p, (s.pc p).sleepsOn q = false))
    | .msgctl _ _ .stat _ | .msgctl _ _ .rmid _ | .msgctl _ _ .other _ => .isTrue trivial
    | .msgget .. | .msgsnd .. | .msgrcv .. | .kill .. => .isTrue trivial

theorem Pc.sendsTo_of_sleepsOn {pc : Pc} (h : pc.sleepsOn q) : pc.sendsTo q := by
  cases pc with
  | asleep => exact h
  | _ => cases h

theorem Step.sleepsOn (st : Step s l s') (h : (s'.pc p).sleepsOn q) :
    (s.pc p).sleepsOn q ∨ (s.pc p).sendsTo q ∧ s.Full q ∧ s'.queue = s.queue := by
  have move := st.move p
  generalize s'.pc p = pc at move h
  cases move with
  | same => exact .inl h
  | ret | sends used same | receives used same | woken at_ => cases h
  | sleeps at_ full same =>
    cases of_decide_eq_true h
    refine .inr ⟨?_, full, same⟩
    rwa [at_]

theorem full_step (full : ∀ p q, (s.pc p).sleepsOn q → s.Full q) (ok : KeepsReason s l)
    (st : Step s l s') (p : Fin n) (q : Fin msgMaxQueues)
    (sleeps : (s'.pc p).sleepsOn q) : s'.Full q := by
  rcases st.sleepsOn sleeps with before | ⟨-, now, same⟩
  · have was := full p q before
    have turn := st.turn q
    rw [State.Full] at was ⊢
    generalize s'.queue q = v at turn ⊢
    cases turn with
    | same | get found => exact was
    | push at_ room => exact (room was).elim
    | pop at_ some =>
      have reason := ok.2 (q, _) (by rw [at_]; rfl)
      rw [at_] at reason
      rcases reason with sends | none
      · cases sends
      · rw [none p] at before
        cases before
    | @control _ _ cmd _ id _ =>
      cases cmd with
      | rmid =>
        have sends := Pc.sendsTo_of_sleepsOn before
        rw [ok.1 q id p] at sends
        cases sends
      | set qbytes =>
        rw [ok.2 q id p] at before
        cases before
      | stat | other => exact was
  · rwa [State.Full, same]

/-- If `msgrcv` and `IPC_SET` act only on queues that no process sleeps on, and `IPC_RMID` only on
queues that no process is in `msgsnd` on, a process sleeps only on a full queue in use. -/
theorem sleeping_sender_justified {size : Int} (run : Reach step KeepsReason (start n size) s)
    (sleeps : (s.pc p).sleepsOn q) :
    (s.queue q).inUse ∧ (s.queue q).queueSize ≤ (s.queue q).msgCount := by
  have senders : SendersUse s := (run.mono fun _ _ ok => ok.1).invariant (I := SendersUse)
    (fun _ _ h => by cases h) fun _ _ _ h ok hstep => h.step ok (step_sound hstep)
  refine ⟨senders p q (Pc.sendsTo_of_sleepsOn sleeps), ?_⟩
  refine run.invariant (I := fun s : State n => ∀ p q, (s.pc p).sleepsOn q → s.Full q)
    (fun _ _ h => by cases h) (fun _ _ _ h ok hstep => ?_) p q sleeps
  exact full_step h ok (step_sound hstep)

/-- A queue for one message: the second sender sleeps. -/
def fillsQueue : List (Label 2) :=
  [.msgget 0, .msgctl 0 0 (.set 1) true, .msgsnd 0 0 (some (message 7)) 4 0, .enter 0 true,
    .msgsnd 1 0 (some (message 8)) 4 0, .enter 1 true]

theorem sleeping_sender_justified_second : ∃ s : State 2,
    Reach step KeepsReason (start 2 msgMaxSize) s ∧ (s.pc 1).sleepsOn 0 = true ∧
    (s.queue 0).queueSize ≤ (s.queue 0).msgCount := by
  obtain ⟨s, reach, sleeps⟩ := exists_reach step KeepsReason (start 2 msgMaxSize) fillsQueue
    (P := fun s : State 2 => (s.pc 1).sleepsOn 0 = true) (by decide +kernel)
  exact ⟨s, reach, sleeps, (sleeping_sender_justified reach sleeps).2⟩

/-- The message is received, and the second sender sleeps on. -/
theorem msgrcv_leaves_sleeper : ∃ s : State 2,
    Reach step (fun _ _ => True) (msginit 2) s ∧ (s.pc 1).sleepsOn 0 = true ∧
    (s.queue 0).msgCount = 0 ∧ (s.queue 0).queueSize = 1 :=
  exists_reach step (fun _ _ => True) (msginit 2) (fillsQueue ++ [.msgrcv 0 0 4 0 0, .enter 0 true])
    (P := fun s : State 2 => (s.pc 1).sleepsOn 0 = true ∧
      (s.queue 0).msgCount = 0 ∧ (s.queue 0).queueSize = 1) (by decide +kernel)

end Xv6.Msg
