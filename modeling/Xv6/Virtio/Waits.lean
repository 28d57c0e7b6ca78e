import Xv6.Lib.Monitor
import Xv6.Virtio.Requests

/-! The processes asleep in `virtio_disk_rw`: those without descriptors on `&disk.free[0]`, which
every `free_desc` wakes, the others on their buffer, which the interrupt handler wakes. -/

namespace Xv6.Virtio

open Function

open Transition (guarded)

variable {P B : Type}

def Disk.freeCount (d : Disk B) : Nat := ((List.range num).filter d.free).length

def Pc.isRw : Pc B → Bool
  | .rw _ _ => true
  | _ => false

section Descriptors

variable {s t : State P B} {i : Nat} {idx : List Nat}

theorem alloc3Loop_none : ∀ (more : Nat) {idx : List Nat} {t t' : State P B}, Took s idx t →
    State.alloc3Loop more idx t = .ok (none, t') → s.disk.freeCount < idx.length + more
  | 0, _, _, _, _, h => by cases h
  | more + 1, idx, t, t', took, h => by
    cases found : t.allocDesc with
    | none =>
      have out : ∀ i < num, s.disk.free i = true → i ∈ idx := by
        intro i hi free
        have miss := List.find?_eq_none.mp (Option.map_eq_none_iff.mp found) i
          (List.mem_range.mpr hi)
        rw [took.state] at miss
        by_contra fresh
        exact miss (by simp [free, fresh])
      have le : s.disk.freeCount ≤ idx.length := by
        refine (List.nodup_range.filter _).length_le_of_subset fun i hi => ?_
        obtain ⟨lt, free⟩ := List.mem_filter.mp hi
        exact out i (List.mem_range.mp lt) free
      omega
    | some r =>
      obtain ⟨i, t1⟩ := r
      rw [State.alloc3Loop, found] at h
      have next : Took s (idx ++ [i]) t1 := took.next found
      have less := alloc3Loop_none more next h
      rw [List.length_append, List.length_singleton] at less
      omega

theorem alloc3Desc_none (h : s.alloc3Desc = .ok (none, t)) : s.disk.freeCount < 3 := by
  have start : Took s [] s := by
    refine ⟨?_, List.nodup_nil, nofun, nofun⟩
    simp
  simpa using alloc3Loop_none 3 start h

theorem Took.freeCount {c : Chain} (took : Took s c.toList t) : 3 ≤ s.disk.freeCount := by
  have sub : c.toList ⊆ (List.range num).filter s.disk.free := fun i hi =>
    List.mem_filter.mpr ⟨List.mem_range.mpr (took.bound i hi), took.free i hi⟩
  exact took.nodup.length_le_of_subset sub

theorem freeDesc_wakes (h : s.freeDesc i = .ok t) :
    t.pc = s.pc ∧ ∀ p, (s.pc p).isRw = true → t.asleep p = false := by
  unfold State.freeDesc at h
  split at h
  · cases h
  split at h
  · cases h
  cases h
  refine ⟨rfl, fun p rw_ => ?_⟩
  show (match s.pc p with | .rw _ _ => false | _ => s.asleep p) = false
  cases at_ : s.pc p with
  | rw b write => rfl
  | idle | wait => rw [at_] at rw_; cases rw_

theorem freeChainLoop_wakes : ∀ {fuel : Nat} {s t : State P B} {i : Nat},
    State.freeChainLoop fuel s i = .ok t →
    t.pc = s.pc ∧ ∀ p, (s.pc p).isRw = true → t.asleep p = false
  | 0, _, _, _, h => by cases h
  | fuel + 1, s, t, i, h => by
    unfold State.freeChainLoop at h
    cases first : s.freeDesc i with
    | error e => rw [first] at h; cases h
    | ok s1 =>
      obtain ⟨pc1, awake1⟩ := freeDesc_wakes first
      rw [first] at h
      replace h : (if (s.disk.desc i).flags &&& descFNext ≠ 0 then
        State.freeChainLoop fuel s1 (s.disk.desc i).next.toNat else .ok s1) = .ok t := h
      split at h
      · obtain ⟨pc, awake⟩ := freeChainLoop_wakes h
        refine ⟨pc.trans pc1, fun p rw_ => awake p ?_⟩
        rwa [pc1]
      · cases h
        exact ⟨pc1, awake1⟩

end Descriptors

section Run

variable [DecidableEq P] [DecidableEq B] {s s' : State P B} {p : P}

def Rested (s : State P B) : Prop :=
  Monitor.Justified s.asleep fun p =>
    s.pc p ≠ .idle ∧ ((s.pc p).isRw = true → s.disk.freeCount < 3)

omit [DecidableEq P] [DecidableEq B] in
theorem Rested.frame (h : Rested s) (pc : s'.pc = s.pc) (free : s'.disk.free = s.disk.free)
    (asleep : ∀ q, s'.asleep q = true → s.asleep q = true) : Rested s' := by
  refine h.mono asleep fun q _ must => ?_
  rwa [pc, Disk.freeCount, free]

theorem Rested.rwSection (h : Rested s) (inv : Inv s) (awake : s.asleep p = false) :
    Rested (s.after (s.rwSection p)) := by
  unfold State.rwSection
  split
  · exact h
  next b write at_ =>
    rcases alloc3Desc_ok s with ⟨c, t, ok, took⟩ | ⟨t, ok, failed⟩
    · -- three descriptors were free, so that nobody else sleeps for them
      rw [ok]
      have enough := took.freeCount
      show Rested (t.request p b write (.ofList c.toList))
      intro q sleeps
      have state := took.state
      have pc : (t.request p b write (.ofList c.toList)).pc q =
          update s.pc p (.wait b (.ofList c.toList) t.reqs.length) q := by
        rw [state]; rfl
      rw [pc]
      by_cases same : q = p
      · rw [same, update_self]
        exact ⟨nofun, nofun⟩
      · replace sleeps : update t.asleep p true q = true := sleeps
        rw [update_of_ne same, state] at sleeps
        obtain ⟨busy, few⟩ := h q sleeps
        rw [update_of_ne same]
        exact ⟨busy, fun rw_ => absurd (few rw_) (by omega)⟩
    · rw [ok]
      have few := alloc3Desc_none ok
      have pc : t.pc = s.pc := by rw [failed.state]
      have free : t.disk.free = s.disk.free := by rw [failed.state]
      have rested : Rested t := h.frame pc free failed.asleep
      refine rested.sleep ⟨?_, fun _ => ?_⟩
      · rw [pc, at_]
        nofun
      · show ((List.range num).filter t.disk.free).length < 3
        rwa [free]
  next b idx k at_ =>
    split
    · show Rested (s.sleep p)
      have here : (s.sleep p).pc p = .wait b idx k := at_
      refine Monitor.Justified.sleep h ⟨?_, fun rw_ => ?_⟩
      · rw [here]
        nofun
      · rw [here] at rw_
        cases rw_
    · obtain ⟨r, mine, rfl, rfl, rfl⟩ := inv.chains.request_of_wait at_
      obtain ⟨t, ok, freed⟩ := (inv.chains.formatted k r mine).freeChain
        (s := { s with
          disk := s.disk.setInfo r.chain.head { s.disk.info r.chain.head with b := none } })
        rfl rfl
      obtain ⟨pc, woken⟩ := freeChainLoop_wakes ok
      simp only [ok]
      show Rested (t.resume r.proc k)
      intro q sleeps
      replace sleeps : t.asleep q = true := sleeps
      have before : s.asleep q = true := freed.asleep q sleeps
      have other : q ≠ r.proc := by
        rintro rfl
        rw [awake] at before
        cases before
      have here : (t.resume r.proc k).pc q = s.pc q := by
        refine (update_of_ne other ..).trans ?_
        rw [pc]
      rw [here]
      refine ⟨(h q before).1, fun rw_ => ?_⟩
      rw [woken q rw_] at sleeps
      cases sleeps

theorem Rested.step (h : Rested s) (inv : Inv s) (hs : step l s = some s') : Rested s' := by
  obtain ⟨-, hs⟩ := Option.ite_none_right_eq_some.mp hs
  cases l with
  | acquiresleep | releasesleep | intr | take =>
    obtain ⟨-, rfl⟩ := guarded hs
    exact h.frame rfl rfl fun _ => id
  | call p b write =>
    obtain ⟨⟨idle, -⟩, rfl⟩ := guarded hs
    intro q sleeps
    have other : q ≠ p := by
      rintro rfl
      exact (h q sleeps).1 idle
    rw [show (s.setPc p (.rw b write)).pc q = s.pc q from update_of_ne other ..]
    exact h q sleeps
  | run p =>
    obtain ⟨⟨-, awake⟩, rfl⟩ := guarded hs
    exact h.rwSection inv awake
  | kill p =>
    cases hs
    exact h.wake p
  | intrNext =>
    obtain ⟨-, rfl⟩ := guarded hs
    unfold State.intrPass
    split
    · exact h.frame rfl rfl fun _ => id
    dsimp only
    split
    · exact h.frame rfl rfl fun _ => id
    split
    · exact h.frame rfl rfl fun _ => id
    split
    · exact h.frame rfl rfl fun _ => id
    next b _ =>
      refine h.frame rfl rfl fun q sleeps => ?_
      dsimp only [State.after, State.wakeup] at sleeps
      split at sleeps
      · split at sleeps
        · cases sleeps
        · exact sleeps
      · exact sleeps
  | complete i =>
    obtain ⟨⟨id', k⟩, -, rfl⟩ := Option.map_eq_some_iff.mp hs
    refine h.frame rfl ?_ fun _ => id
    show (s.disk.complete id').free = s.disk.free
    unfold Disk.complete
    dsimp only
    split <;> rfl

theorem Rested.reach (run : Reach s) : Rested s :=
  (run.invariant (I := fun s => Inv s ∧ Rested s) ⟨Inv.boot, Monitor.Justified.none⟩
    fun _ _ _ h _ hs => ⟨h.1.step hs, h.2.step h.1 hs⟩).2

omit [DecidableEq P] [DecidableEq B] in
theorem Inv.disk_of_asleep (h : Inv s) (at_ : s.pc p = .wait b c k)
    (sleeps : s.asleep p = true) : (s.buf b).disk = true := by
  obtain ⟨r, mine, rfl, rfl, rfl⟩ := h.chains.request_of_wait at_
  exact (h.phases.disk k r mine).mpr (h.phases.asleep k r mine sleeps)

end Run

end Xv6.Virtio
