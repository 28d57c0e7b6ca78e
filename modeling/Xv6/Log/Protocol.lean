import Xv6.Log.System

/-! The protocol of `begin_op`, `log_write`, `end_op` and `commit`, and its invariant. -/

namespace Xv6.Log

open Transition Function

/-- What a step does, with one constructor for each path through the code and the tests that lead
to it. -/
inductive Effect (g : Geometry) (s : State) : Label → State → Prop
  | crash : Effect g s .crash s.crash
  | sleep {p : Pid} (up : s.mode = .up) (at_ : s.proc p = .idle ∨ s.proc p = .asleep) :
      Effect g s (.beginOp p) (s.setProc p .asleep)
  | enter {p : Pid} (up : s.mode = .up) (at_ : s.proc p = .idle ∨ s.proc p = .asleep)
      (quiet : s.committing = false)
      (room : (s.lh.length : Int) + (s.outstanding + 1) * maxOpBlocks ≤ logSize) :
      Effect g s (.beginOp p) { s.setProc p .inOp with
        outstanding := s.outstanding + 1
        opened := update s.opened p s.durable.length
        wrote := update s.wrote p [] }
  | tooBig {p : Pid} {b : UInt32} {data : Block} (up : s.mode = .up)
      (full : s.lh.length ≥ logSize ∨ (s.lh.length : Int) ≥ (g.size : Int) - 1) :
      Effect g s (.logWrite p b data) (s.panic .tooBig)
  | outside {p : Pid} {b : UInt32} {data : Block} (up : s.mode = .up)
      (at_ : s.proc p = .idle ∨ s.proc p = .inOp) (none_ : s.outstanding < 1) :
      Effect g s (.logWrite p b data) (s.panic .outside)
  | log {p : Pid} {b : UInt32} {data : Block} (up : s.mode = .up)
      (at_ : s.proc p = .idle ∨ s.proc p = .inOp)
      (room : s.lh.length < logSize ∧ (s.lh.length : Int) < (g.size : Int) - 1)
      (some_ : 1 ≤ s.outstanding) :
      Effect g s (.logWrite p b data) { s with
        bread := update s.bread b.toNat data
        lh := if b ∈ s.lh then s.lh else s.lh ++ [b]
        wrote := update s.wrote p
          (if b ∈ s.wrote p then s.wrote p else b :: s.wrote p) }
  | endPanic {p : Pid} (up : s.mode = .up) (at_ : s.proc p = .inOp)
      (busy : s.committing = true) :
      Effect g s (.endOp p) { s with
        outstanding := s.outstanding - 1
        closed := s.closed ++ [⟨s.opened p, s.wrote p⟩]
        panicked := some .committing }
  | endLast {p : Pid} (up : s.mode = .up) (at_ : s.proc p = .inOp)
      (quiet : s.committing = false) (last : s.outstanding - 1 = 0) :
      Effect g s (.endOp p) { s.setProc p (.commit .test) with
        outstanding := s.outstanding - 1
        closed := s.closed ++ [⟨s.opened p, s.wrote p⟩]
        committing := true }
  | endOther {p : Pid} (up : s.mode = .up) (at_ : s.proc p = .inOp)
      (quiet : s.committing = false) :
      Effect g s (.endOp p) { s.setProc p .idle with
        outstanding := s.outstanding - 1
        closed := s.closed ++ [⟨s.opened p, s.wrote p⟩] }
  | testSome {p : Pid} (up : s.mode = .up) (at_ : s.proc p = .commit .test) (some_ : s.lh ≠ []) :
      Effect g s (.commit p) (s.setProc p (.commit (.writeLog 0)))
  | testNone {p : Pid} (up : s.mode = .up) (at_ : s.proc p = .commit .test) (none_ : s.lh = []) :
      Effect g s (.commit p) (s.setProc p (.commit .done))
  | writeLog {p : Pid} {tail : Nat} {home : UInt32} (up : s.mode = .up)
      (at_ : s.proc p = .commit (.writeLog tail)) (get : s.lh[tail]? = some home) :
      Effect g s (.commit p) ((s.bwrite (g.start + tail + 1) (s.bread home.toNat)).setProc p
        (.commit (.writeLog (tail + 1))))
  | writeLogEnd {p : Pid} {tail : Nat} (up : s.mode = .up)
      (at_ : s.proc p = .commit (.writeLog tail)) (get : s.lh[tail]? = none) :
      Effect g s (.commit p) (s.setProc p (.commit .writeHead))
  | writeHead {p : Pid} (up : s.mode = .up) (at_ : s.proc p = .commit .writeHead) :
      Effect g s (.commit p) { (s.bwrite g.start (writeHead s.lh (s.bread g.start))).setProc p
          (.commit (.install 0)) with
        durable := s.durable ++ [s.tx] }
  | install {p : Pid} {tail : Nat} {home : UInt32} (up : s.mode = .up)
      (at_ : s.proc p = .commit (.install tail)) (get : s.lh[tail]? = some home) :
      Effect g s (.commit p)
        ((installBlock g s tail home).setProc p (.commit (.install (tail + 1))))
  | installEnd {p : Pid} {tail : Nat} (up : s.mode = .up)
      (at_ : s.proc p = .commit (.install tail)) (get : s.lh[tail]? = none) :
      Effect g s (.commit p) (s.setProc p (.commit .clear))
  | clear {p : Pid} (up : s.mode = .up) (at_ : s.proc p = .commit .clear) :
      Effect g s (.commit p) { s.setProc p (.commit .clearHead) with lh := [] }
  | clearHead {p : Pid} (up : s.mode = .up) (at_ : s.proc p = .commit .clearHead) :
      Effect g s (.commit p)
        ((s.bwrite g.start (Log.writeHead s.lh (s.bread g.start))).setProc p (.commit .done))
  | done {p : Pid} (up : s.mode = .up) (at_ : s.proc p = .commit .done) :
      Effect g s (.commit p) { s.setProc p .idle with committing := false }
  | recRead (mode : s.mode = .readHead) :
      Effect g s .recover { s with lh := readHead (s.bread g.start), mode := .install 0 }
  | recInstall {tail : Nat} {home : UInt32} (mode : s.mode = .install tail)
      (get : s.lh[tail]? = some home) :
      Effect g s .recover { installBlock g s tail home with mode := .install (tail + 1) }
  | recInstallEnd {tail : Nat} (mode : s.mode = .install tail) (get : s.lh[tail]? = none) :
      Effect g s .recover { s with lh := [], mode := .clearHead }
  | recClear (mode : s.mode = .clearHead) :
      Effect g s .recover
        { s.bwrite g.start (Log.writeHead s.lh (s.bread g.start)) with mode := .up }

variable {g : Geometry} {s s' : State} {l : Label} {p : Pid}

theorem beginOp_effect (up : s.mode = .up) (h : beginOp s p = some s') :
    Effect g s (.beginOp p) s' := by
  unfold beginOp at h
  have body (at_ : s.proc p = .idle ∨ s.proc p = .asleep)
      (h : (if s.committing then some (s.setProc p .asleep)
        else if (s.lh.length : Int) + (s.outstanding + 1) * maxOpBlocks > logSize then
          some (s.setProc p .asleep)
        else some { s.setProc p .inOp with
          outstanding := s.outstanding + 1
          opened := update s.opened p s.durable.length
          wrote := update s.wrote p [] }) = some s') :
      Effect g s (.beginOp p) s' := by
    split at h
    · cases h; exact .sleep up at_
    · split at h
      · cases h; exact .sleep up at_
      · cases h
        exact .enter up at_ (by simpa using ‹¬s.committing = true›) (by omega)
  split at h
  · exact body (.inl ‹_›) h
  · exact body (.inr ‹_›) h
  · cases h

theorem logWrite_effect (up : s.mode = .up)
    (h : logWrite g s p b data = some s') : Effect g s (.logWrite p b data) s' := by
  have at_ : s.proc p = .idle ∨ s.proc p = .inOp := by
    unfold logWrite at h
    split at h
    · exact .inl ‹_›
    · exact .inr ‹_›
    · cases h
  have body : (if s.lh.length ≥ logSize ∨ (s.lh.length : Int) ≥ (g.size : Int) - 1 then
        some (s.panic .tooBig)
      else if s.outstanding < 1 then some (s.panic .outside)
      else some { s with
        bread := update s.bread b.toNat data
        lh := if b ∈ s.lh then s.lh else s.lh ++ [b]
        wrote := update s.wrote p
          (if b ∈ s.wrote p then s.wrote p else b :: s.wrote p) }) = some s' := by
    rcases at_ with at_ | at_ <;> simpa only [logWrite, at_] using h
  split at body
  · cases body; exact .tooBig up ‹_›
  · split at body
    · cases body; exact .outside up at_ ‹_›
    · cases body; exact .log up at_ (by omega) (by omega)

theorem endOp_effect (up : s.mode = .up) (h : endOp s p = some s') : Effect g s (.endOp p) s' := by
  unfold endOp at h
  split at h
  · rename_i at_
    dsimp only at h
    split at h
    · cases h; exact .endPanic up at_ ‹_›
    · have quiet : s.committing = false := by simpa using ‹¬s.committing = true›
      split at h
      · cases h; exact .endLast up at_ quiet ‹_›
      · cases h; exact .endOther up at_ quiet
  · cases h

theorem commitStep_effect (up : s.mode = .up) (h : commitStep g s p = some s') :
    Effect g s (.commit p) s' := by
  unfold commitStep at h
  split at h
  · split at h
    · cases h; exact .testSome up ‹_› (List.ne_nil_of_length_pos ‹_›)
    · cases h; exact .testNone up ‹_› (List.eq_nil_of_length_eq_zero (by omega))
  · split at h
    · cases h; exact .writeLog up ‹_› ‹_›
    · cases h; exact .writeLogEnd up ‹_› ‹_›
  · cases h; exact .writeHead up ‹_›
  · split at h
    · cases h; exact .install up ‹_› ‹_›
    · cases h; exact .installEnd up ‹_› ‹_›
  · cases h; exact .clear up ‹_›
  · cases h; exact .clearHead up ‹_›
  · cases h; exact .done up ‹_›
  · cases h

theorem recoverStep_effect (h : recoverStep g s = some s') : Effect g s .recover s' := by
  unfold recoverStep at h
  split at h
  · cases h; exact .recRead ‹_›
  · split at h
    · cases h; exact .recInstall ‹_› ‹_›
    · cases h; exact .recInstallEnd ‹_› ‹_›
  · cases h; exact .recClear ‹_›
  · cases h

/-- Every step is one of the effects, and follows no panic unless it is a restart. -/
theorem step_effect (h : step g l s = some s') :
    Effect g s l s' ∧ (l = .crash ∨ s.panicked = none) := by
  cases l with
  | crash => cases h; exact ⟨.crash, .inl rfl⟩
  | recover =>
    simp only [step] at h
    split at h
    · exact ⟨recoverStep_effect h, .inr ‹_›⟩
    · cases h
  | beginOp p =>
    simp only [step] at h
    split at h
    · rename_i hs; exact ⟨beginOp_effect hs.2 h, .inr hs.1⟩
    · cases h
  | logWrite p b data =>
    simp only [step] at h
    split at h
    · rename_i hs; exact ⟨logWrite_effect hs.2 h, .inr hs.1⟩
    · cases h
  | endOp p =>
    simp only [step] at h
    split at h
    · rename_i hs; exact ⟨endOp_effect hs.2 h, .inr hs.1⟩
    · cases h
  | commit p =>
    simp only [step] at h
    split at h
    · rename_i hs; exact ⟨commitStep_effect hs.2 h, .inr hs.1⟩
    · cases h

/-- As many processes as `outstanding` says are in operations, none during a commit, and at most one
commits. -/
structure Protocol (s : State) : Prop where
  count : ∃ ops : Finset Pid, (∀ p, p ∈ ops ↔ s.proc p = .inOp) ∧ s.outstanding = ops.card
  exclusive : s.committing = true → ∀ p, s.proc p ≠ .inOp
  committer : ∀ p c, s.proc p = .commit c → s.committing = true
  unique : ∀ p q c c', s.proc p = .commit c → s.proc q = .commit c' → p = q
  down : s.mode ≠ .up → ∀ p, s.proc p = .idle

theorem Protocol.boot (d : Disk) (durable : List Tx) (closed : List Section) :
    Protocol (State.boot d durable closed) where
  count := ⟨∅, by simp [State.boot], rfl⟩
  exclusive h := by cases h
  committer p c h := by cases h
  unique p q c c' h := by cases h
  down _ _ := rfl

section

variable (h : Protocol s)

include h

theorem Protocol.move (outstanding : s'.outstanding = s.outstanding)
    (committing : s'.committing = s.committing) (ops : ∀ p, s'.proc p = .inOp ↔ s.proc p = .inOp)
    (commits : ∀ p c, s'.proc p = .commit c → ∃ c', s.proc p = .commit c')
    (down : s'.mode ≠ .up → ∀ p, s'.proc p = .idle) : Protocol s' where
  count := by
    obtain ⟨A, mem, card⟩ := h.count
    exact ⟨A, fun p => (mem p).trans (ops p).symm, outstanding.trans card⟩
  exclusive hc p hp := h.exclusive (committing ▸ hc) p ((ops p).mp hp)
  committer p c hp := by
    obtain ⟨c', hp'⟩ := commits p c hp
    exact committing.trans (h.committer p c' hp')
  unique p q c c' hp hq := by
    obtain ⟨d, hp'⟩ := commits p c hp
    obtain ⟨d', hq'⟩ := commits q c' hq
    exact h.unique p q d d' hp' hq'
  down := down

/-- A step in which process `p` goes from `pc` to `pc'`, neither of them in an operation, and
starts no commit. -/
theorem Protocol.moveOne (up : s.mode = .up) (at_ : s.proc p = pc) (hpc : pc ≠ .inOp)
    (hpc' : pc' ≠ .inOp) (hc : ∀ c, pc' = .commit c → ∃ c', pc = .commit c') :
    Protocol (s.setProc p pc') := by
  refine h.move rfl rfl (fun q => ?_) (fun q c hq => ?_) (fun hm => absurd up hm)
  · by_cases e : q = p
    · subst e; simp [at_, hpc, hpc']
    · simp [e]
  · by_cases e : q = p
    · subst e
      obtain ⟨c', rfl⟩ := hc c (by simpa using hq)
      exact ⟨c', at_⟩
    · exact ⟨c, by simpa [e] using hq⟩

theorem Protocol.same (proc : s'.proc = s.proc) (outstanding : s'.outstanding = s.outstanding)
    (committing : s'.committing = s.committing) (down : s'.mode ≠ .up → s.mode ≠ .up) :
    Protocol s' :=
  h.move outstanding committing (fun p => by rw [proc]) (fun p c hp => ⟨c, proc ▸ hp⟩)
    fun hm p => by rw [proc]; exact h.down (down hm) p

theorem Protocol.enter (up : s.mode = .up) (at_ : s.proc p = .idle ∨ s.proc p = .asleep)
    (quiet : s.committing = false) :
    Protocol { s.setProc p .inOp with outstanding := s.outstanding + 1, opened, wrote } := by
  have new : s.proc p ≠ .inOp := by rcases at_ with e | e <;> simp [e]
  have commits : ∀ q c, (s.setProc p .inOp).proc q = .commit c → s.proc q = .commit c := by
    intro q c hq
    by_cases e : q = p
    · subst e; simp at hq
    · simpa [e] using hq
  refine ⟨?_, fun hc => ?_, fun q c hq => h.committer q c (commits q c hq),
    fun q r c c' hq hr => h.unique q r c c' (commits q c hq) (commits r c' hr),
    fun hm => absurd up hm⟩
  · obtain ⟨A, mem, card⟩ := h.count
    refine ⟨insert p A, fun q => ?_, ?_⟩
    · by_cases e : q = p
      · subst e; simp
      · simp [e, mem]
    · rw [Finset.card_insert_of_notMem (fun hp => new ((mem p).mp hp))]
      push_cast
      rw [← card]
  · rw [show s.committing = true from hc] at quiet
    cases quiet

theorem Protocol.leave_count (pc : Pc) (at_ : s.proc p = .inOp) (hpc : pc ≠ .inOp) :
    ∃ A : Finset Pid, (∀ q, q ∈ A ↔ (s.setProc p pc).proc q = .inOp) ∧
      s.outstanding - 1 = A.card := by
  obtain ⟨A, mem, card⟩ := h.count
  refine ⟨A.erase p, fun q => ?_, ?_⟩
  · by_cases e : q = p
    · subst e; simp [hpc]
    · simp [e, mem]
  · rw [Finset.card_erase_of_mem ((mem p).mpr at_), card]
    have : 0 < A.card := Finset.card_pos.mpr ⟨p, (mem p).mpr at_⟩
    omega

theorem Protocol.endOther (up : s.mode = .up) (at_ : s.proc p = .inOp) :
    Protocol { s.setProc p .idle with outstanding := s.outstanding - 1, closed } := by
  have back : ∀ q pc, pc ≠ .idle → (s.setProc p .idle).proc q = pc → s.proc q = pc := by
    intro q pc hne hq
    by_cases e : q = p
    · subst e; simp at hq; exact absurd hq.symm hne
    · simpa [e] using hq
  exact ⟨h.leave_count .idle at_ (by simp), fun hc q hq => h.exclusive hc q (back q _ (by simp) hq),
    fun q c hq => h.committer q c (back q _ (by simp) hq),
    fun q r c c' hq hr => h.unique q r c c' (back q _ (by simp) hq) (back r _ (by simp) hr),
    fun hm => absurd up hm⟩

theorem Protocol.endLast (up : s.mode = .up) (at_ : s.proc p = .inOp)
    (quiet : s.committing = false) (last : s.outstanding - 1 = 0) :
    Protocol { s.setProc p (.commit .test) with
      outstanding := s.outstanding - 1, closed, committing := true } := by
  have only : ∀ q c, (s.setProc p (.commit .test)).proc q = .commit c → q = p := by
    intro q c hq
    by_contra e
    have := h.committer q c (by simpa [e] using hq)
    rw [quiet] at this
    cases this
  refine ⟨h.leave_count (.commit .test) at_ (by simp), fun _ q hq => ?_, fun _ _ _ => rfl,
    fun q r c c' hq hr => (only q c hq).trans (only r c' hr).symm, fun hm => absurd up hm⟩
  -- the count of the remaining operations is 0, so no process is left in one
  obtain ⟨A, mem, card⟩ := h.leave_count (.commit .test) at_ (by simp)
  have empty : A.card = 0 := by omega
  have hqA := (mem q).mpr hq
  rw [Finset.card_eq_zero.mp empty] at hqA
  simp at hqA

theorem Protocol.done (up : s.mode = .up) (at_ : s.proc p = .commit .done) :
    Protocol { s.setProc p .idle with committing := false } := by
  have none_ : ∀ q c, (s.setProc p .idle).proc q ≠ .commit c := by
    intro q c hq
    by_cases e : q = p
    · subst e; simp at hq
    · exact e (h.unique q p c .done (by simpa [e] using hq) at_)
  refine ⟨?_, fun hc => (by cases hc), fun q c hq => absurd hq (none_ q c),
    fun q r c c' hq => absurd hq (none_ q c), fun hm => absurd up hm⟩
  obtain ⟨A, mem, card⟩ := h.count
  refine ⟨A, fun q => ?_, card⟩
  by_cases e : q = p
  · subst e; simp [mem, at_]
  · simp [e, mem]

theorem Protocol.effect (eff : Effect g s l s') : Protocol s' := by
  cases eff with
  | crash => exact Protocol.boot _ _ _
  | sleep up at_ =>
    rcases at_ with e | e
    · exact h.moveOne up e (by simp) (by simp) (by simp)
    · exact h.moveOne up e (by simp) (by simp) (by simp)
  | enter up at_ quiet => exact h.enter up at_ quiet
  | tooBig | outside | log => exact h.same rfl rfl rfl id
  | endPanic up at_ busy => exact absurd at_ (h.exclusive busy _)
  | endLast up at_ quiet last => exact h.endLast up at_ quiet last
  | endOther up at_ => exact h.endOther up at_
  | testSome up at_ | testNone up at_ | writeLogEnd up at_ | installEnd up at_ =>
    exact h.moveOne up at_ (by simp) (by simp) (by simp)
  | writeLog up at_ | writeHead up at_ | install up at_ | clear up at_ | clearHead up at_ =>
    exact (h.moveOne up at_ (by simp) (by simp) (by simp)).same rfl rfl rfl id
  | done up at_ => exact h.done up at_
  | recRead mode | recInstall mode | recInstallEnd mode =>
    exact h.same rfl rfl rfl fun _ => by simp [mode]
  | recClear mode => exact h.same rfl rfl rfl fun hm => absurd rfl hm

end

end Xv6.Log
