import Xv6.Msg.Fifo

/-! The places of messages, and the test of the type. Queue `q` has the slots from `q * 100` on;
`msgsnd` takes 1024 for 100, and the capacity is what `IPC_SET` says. -/

namespace Xv6.Msg

open Transition

variable {n : Nat} {s s' : State n} {l : Label n} {p : Fin n} {q : Fin msgMaxQueues}

/-- Index `i` of `messages` is one of the slots of queue `q`. -/
def Slot (q : Fin msgMaxQueues) (i : Nat) : Prop := q * 100 ≤ i ∧ i < q * 100 + 100

/-- `msg_index` of `msgsnd` and of `msgrcv`. -/
def State.sendIndex (s : State n) (q : Fin msgMaxQueues) : Nat :=
  q * msgMaxSize + (s.queue q).lastMsg

def State.receiveIndex (s : State n) (q : Fin msgMaxQueues) : Nat := q * 100 + (s.queue q).firstMsg

/-- Where the messages of a queue are: `last_msg` counts those stored since the last removal. -/
structure Bounded (q : Fin msgMaxQueues) (v : Queue) : Prop where
  first : v.firstMsg < 100
  last : v.lastMsg = v.sends
  few : v.sends ≤ 100
  count : v.msgCount ≤ v.sends

theorem Bounded.step (h : Bounded q (s.queue q)) (ok : SendsFew s l) (st : Step s l s') :
    Bounded q (s'.queue q) := by
  have turn := st.turn q
  generalize s'.queue q = v at turn ⊢
  cases turn with
  | same => exact h
  | get found => exact { h with }
  | push at_ room =>
    have few := (ok q (by rw [at_]; exact decide_eq_true rfl) room).2
    have last : ((s.queue q).lastMsg + 1) % msgMaxSize = (s.queue q).sends + 1 := by
      rw [h.last]
      exact Nat.mod_eq_of_lt (by unfold msgMaxSize; omega)
    exact ⟨h.first, last, few, Nat.succ_le_succ h.count⟩
  | pop at_ some =>
    exact ⟨Nat.mod_lt _ (by decide), h.last, h.few, (Nat.sub_le ..).trans h.count⟩
  | @control _ _ cmd _ id used =>
    cases cmd with
    | rmid => exact ⟨Nat.succ_pos 99, rfl, Nat.zero_le _, le_rfl⟩
    | _ => exact { h with }

/-- If messages are stored only in queue 0, at most 100 between two removals of it, a queue has no
more messages than slots, and the indices of `msgrcv` and `msgsnd` are slots of the queue and within
the array. -/
theorem storage_in_bounds {size : Int} (run : Reach step SendsFew (start n size) s)
    (q : Fin msgMaxQueues) :
    (s.queue q).msgCount ≤ 100 ∧ Slot q (s.receiveIndex q) ∧
    (∀ p c, SendsFew s (.enter p c) → (s.pc p).sendsTo q → ¬s.Full q → Slot q (s.sendIndex q)) ∧
    ∀ i, Slot q i → i < msgMaxQueues * 100 := by
  have bounded : Bounded q (s.queue q) := run.invariant (I := fun s => Bounded q (s.queue q))
    ⟨Nat.succ_pos 99, rfl, Nat.zero_le _, le_rfl⟩ fun _ _ _ h ok hstep => h.step ok (step_sound hstep)
  refine ⟨bounded.count.trans bounded.few, ?_, fun p c ok sends room => ?_, fun i hi => ?_⟩
  · exact ⟨Nat.le_add_right .., Nat.add_lt_add_left bounded.first _⟩
  · obtain ⟨rfl, few⟩ := ok q sends room
    refine ⟨Nat.zero_le _, ?_⟩
    rw [State.sendIndex, bounded.last]
    simpa using few
  · have := hi.2
    omega

theorem storage_in_bounds_twice : ∃ s : State 1, Reach step SendsFew (msginit 1) s ∧
    s.receiveIndex 0 = 1 ∧ Slot 0 (s.receiveIndex 0) := by
  obtain ⟨s, reach, index⟩ := exists_reach step SendsFew (msginit 1) sendsTwice
    (P := fun s : State 1 => s.receiveIndex 0 = 1) (by decide +kernel)
  exact ⟨s, reach, index, (storage_in_bounds reach 0).2.1⟩

/-- A message to queue 2 is stored behind the array. -/
theorem third_queue_out_of_bounds : ∃ s : State 1, Reach step (fun _ _ => True) (msginit 1) s ∧
    (s.pc 0).sendsTo 2 ∧ ¬s.Full 2 ∧ s.sendIndex 2 = 2048 ∧ msgMaxQueues * 100 ≤ s.sendIndex 2 :=
  exists_reach step (fun _ _ => True) (msginit 1)
    [.msgget 0, .msgget 0, .msgget 0, .msgsnd 0 2 (some (message 7)) 4 0] (by decide +kernel)

/-- The bytes of `msgtyp` that `argint` does not write are those of the argument's sign. -/
def SignFilled (low high : UInt32) : Prop := high = if low.toNat < 2 ^ 31 then 0 else 0xffffffff

theorem msgtypOf_toInt : (msgtypOf low high).toInt = low.toInt32.toInt ↔ SignFilled low high := by
  have hl := low.toNat_lt
  have hh := high.toNat_lt
  have word : (low.toUInt64 ||| (high.toUInt64 <<< 32)).toNat =
      high.toNat * 2 ^ 32 + low.toNat := by
    rw [UInt64.toNat_or, UInt64.toNat_shiftLeft]
    simp only [UInt32.toNat_toUInt64, UInt64.reduceToNat, Nat.reduceMod]
    rw [Nat.mod_eq_of_lt (by rw [Nat.shiftLeft_eq]; omega), Nat.or_comm,
      ← Nat.shiftLeft_add_eq_or_of_lt hl, Nat.shiftLeft_eq]
  have wide : (msgtypOf low high).toInt =
      Int.bmod (high.toNat * 2 ^ 32 + low.toNat : Nat) (2 ^ 64) :=
    (BitVec.toInt_eq_toNat_bmod _).trans (by rw [← word]; rfl)
  have narrow : low.toInt32.toInt = Int.bmod low.toNat (2 ^ 32) := BitVec.toInt_eq_toNat_bmod _
  rw [wide, narrow, SignFilled, ← UInt32.toNat_inj]
  split <;> simp only [Int.bmod, UInt32.reduceToNat] <;> omega

/-- `msgrcv` is asked for any message, or for one of this type. -/
def Wants (msgtyp : Int) (mtype : Int64) : Prop := msgtyp ≤ 0 ∨ mtype.toInt = msgtyp

/-- `msgrcv` takes the message at the head if it is wanted (and `copyout` succeeds), and otherwise
fails and leaves the queue. -/
def Obeys (s : State n) (p : Fin n) (q : Fin msgMaxQueues) (msgsz : Int) (msgtyp : Int)
    (issued : Nat) : Prop :=
  ∀ copyout, ∃ s', step (.enter p copyout) s = some s' ∧
    (Wants msgtyp (s.front q).mtype → copyout → s' = (s.take q issued).ret p (.val msgsz)) ∧
    (¬Wants msgtyp (s.front q).mtype →
      s'.pc p = .user .fail ∧ s'.queue = s.queue ∧ s'.messages = s.messages)

theorem obeys_iff {typ : Int64} (at_ : s.pc p = .receiving q msgsz typ issued)
    (head : (s.queue q).msgCount ≠ 0) : Obeys s p q msgsz msgtyp issued ↔
      (Wants msgtyp (s.front q).mtype ↔ Wants typ.toInt (s.front q).mtype) := by
  have test : (0 < typ ∧ (s.front q).mtype ≠ typ) ↔ ¬Wants typ.toInt (s.front q).mtype := by
    rw [Wants, Int64.lt_iff_toInt_lt, Ne, ← Int64.toInt_inj, not_or, not_le]
    rfl
  have fails (r : Ret) : (s.ret p r).pc p = .user r := Function.update_self ..
  have takes : ((s.take q issued).ret p (.val msgsz)).pc p = .user (.val msgsz) :=
    Function.update_self ..
  simp only [Obeys, step, at_, State.receive, if_neg head]
  by_cases wants : Wants typ.toInt (s.front q).mtype
  · refine ⟨fun obeys => iff_of_true ?_ wants, fun same copyout => ⟨_, rfl, fun _ ok => ?_, ?_⟩⟩
    · by_contra no
      obtain ⟨s', eq, -, fail⟩ := obeys true
      rw [if_neg fun c => test.mp c wants, if_neg (not_not.mpr rfl)] at eq
      cases eq
      cases takes.symm.trans (fail no).1
    · rw [if_neg fun c => test.mp c wants, if_neg (by simp [ok])]
    · exact fun no => absurd (same.mpr wants) no
  · refine ⟨fun obeys => iff_of_false (fun yes => ?_) wants,
      fun same copyout => ⟨_, rfl, fun yes => absurd (same.mp yes) wants, fun _ => ?_⟩⟩
    · obtain ⟨s', eq, take, -⟩ := obeys true
      rw [if_pos (test.mpr wants)] at eq
      cases eq
      have same := congrArg (State.pc · p) (take yes rfl)
      cases (fails .fail).symm.trans (same.trans takes)
    · rw [if_pos (test.mpr wants)]
      exact ⟨fails .fail, rfl, rfl⟩

/-- The test of the type is right for every message at the head iff the bytes of `msgtyp` that
`argint` does not write are those of the argument's sign, or the argument and the whole word are
both not positive. -/
theorem msgrcv_type_test (low high : UInt32) :
    (∀ (n : Nat) (s : State n) p q msgsz issued,
      s.pc p = .receiving q msgsz (msgtypOf low high) issued → (s.queue q).msgCount ≠ 0 →
      Obeys s p q msgsz low.toInt32.toInt issued) ↔
    SignFilled low high ∨ low.toInt32.toInt ≤ 0 ∧ (msgtypOf low high).toInt ≤ 0 := by
  rw [← msgtypOf_toInt]
  constructor
  · intro right
    have same (mtype : Int64) :
        Wants low.toInt32.toInt mtype ↔ Wants (msgtypOf low high).toInt mtype :=
      (obeys_iff rfl one_ne_zero).mp (right 1
        ⟨fun _ => ⟨true, 1, 0, 1, 1, [], [], 1, none, 0, false⟩, fun _ => ⟨mtype, fun _ => 0⟩,
          fun _ => .receiving 0 0 (msgtypOf low high) 0⟩ 0 0 0 0 rfl one_ne_zero)
    -- the word itself as the type, and the type 0, tell the two tests apart
    have word := (same (msgtypOf low high)).mpr (.inr rfl)
    have zero := same 0
    rw [Wants, Wants, show (0 : Int64).toInt = 0 from rfl] at zero
    rcases word with nonpos | eq
    · exact .inr ⟨nonpos, by omega⟩
    · exact .inl eq
  · rintro right n s p q msgsz issued at_ head
    rw [obeys_iff at_ head]
    rcases right with eq | ⟨arg, word⟩
    · rw [eq]
    · exact iff_of_true (.inl arg) (.inl word)

/-- What `msgrcv` for type 7 returns, with `high` on the stack where `msgtyp` is. -/
def receives (s : State 1) (high : UInt32) : Option Ret :=
  ((step (.msgrcv 0 0 4 7 high) s).bind (step (.enter 0 true))).bind fun t =>
    match t.pc 0 with
    | .user r => some r
    | _ => none

/-- A message of type 7 is in the queue, and what was on the stack decides whether it is received. -/
theorem msgrcv_reads_stack : ∃ s : State 1, Reach step (fun _ _ => True) (msginit 1) s ∧
    receives s 0 = some (.val 4) ∧ receives s 1 = some .fail :=
  exists_reach step (fun _ _ => True) (msginit 1)
    [.msgget 0, .msgsnd 0 0 (some (message 7)) 4 0, .enter 0 true] (by decide +kernel)

end Xv6.Msg
