import Xv6.Bio.Program

/-! The invariant of the block cache under the log: what the counts count, what `commit` holds, and
what the buffers and the disk contain. -/

namespace Xv6.Bio

open Log (Geometry)
open Transition (guarded)
open Function List Option

namespace State

variable (s : State)

/-- Block `b` has the reference that `log_write` took with `bpin`. -/
def Pinned (b : Nat) : Prop := b ∈ s.lh ∧ s.committing.all (fun c => .bunpin b ∈ c.2) = true

instance (b : Nat) : Decidable (s.Pinned b) := inferInstanceAs (Decidable (_ ∧ _))

/-- Block `b` is in the header, and `install_trans` has not yet written it. -/
def Pending (b : Nat) : Prop := b ∈ s.lh ∧ ∀ p prog, s.committing = some (p, prog) → Writes b prog

/-- The number of processes that hold or wait for buffer `i`. -/
def users (i : Index) : Nat := (s.buf i).lock.toList.length + (s.waiters i).length

def Pins (i : Index) : Prop := (s.buf i).dev = rootdev ∧ s.Pinned (s.buf i).blockno

instance (i : Index) : Decidable (s.Pins i) := inferInstanceAs (Decidable (_ ∧ _))

/-- What a buffer of block `b` holds: blocks of the log are cached as they are on the disk. -/
def shows (g : Geometry) (b : Nat) : Block := if g.Region b then s.disk b else s.L b

end State

/-- The cache by itself: who refers to which buffer. -/
structure Counted (s : State) : Prop where
  lru : ∀ i, i ∈ s.lru
  keys : ∀ i j b, s.Caches i b → s.Caches j b → i = j
  refs : ∀ i, (s.buf i).refcnt = s.users i + if s.Pins i then 1 else 0
  locked : ∀ i p, (s.buf i).lock = some p → (s.buf i).dev = rootdev ∧ (s.buf i).valid = true
  sleepers : ∀ i p, p ∈ s.waiters i → s.Caches i (s.wants p)
  once : ∀ i j p, p ∈ s.waiters i → p ∈ s.waiters j → i = j
  nodup : ∀ i, (s.waiters i).Nodup

/-- The process in `commit`: the buffers of the log are its own, and it holds what its program
releases. -/
structure Committer (g : Geometry) (s : State) : Prop where
  own : ∀ i p b, s.Caches i b → g.Region b → (s.buf i).lock = some p →
    ∃ prog, s.committing = some (p, prog) ∧ b ∈ holds prog
  asleep : ∀ i p, p ∈ s.waiters i → g.Region (s.wants p) → ∃ prog, s.committing = some (p, prog)
  turn : ∀ i p prog, p ∈ s.waiters i → s.committing = some (p, prog) →
    ∃ rest, prog = .bread (s.wants p) :: rest
  holding : ∀ p prog b, s.committing = some (p, prog) → b ∈ holds prog →
    ∃ i, s.Caches i b ∧ (s.buf i).lock = some p
  fits : ∀ p prog, s.committing = some (p, prog) →
    (s.panicked = none → s.outstanding = 0) ∧ Fits g s.lh prog

/-- The contents of the buffers and of the disk. -/
structure Contents (g : Geometry) (s : State) : Prop where
  logged : Logged g s.lh
  data : ∀ i b, s.Caches i b → (s.buf i).valid = true → (s.buf i).data = s.shows g b
  cached : ∀ b, s.Pinned b → ∃ i, s.Caches i b ∧ (s.buf i).valid = true
  disk : ∀ b, ¬g.Region b → ¬s.Pending b → s.disk b = s.L b
  copied : ∀ p prog t b, s.committing = some (p, prog) → s.lh[t]? = some b →
    ¬Writes (g.start + t + 1) prog → s.disk (g.start + t + 1) = s.L b

structure Inv (g : Geometry) (s : State) : Prop where
  counted : Counted s
  committer : Committer g s
  contents : Contents g s

variable {g : Geometry} {s s' : State} {p : Pid} {i : Index} {b : Nat} {B : Buf} {instr : Instr}
  {rest : List Instr}

theorem Counted.unused (h : Counted s) (h0 : (s.buf i).refcnt = 0) :
    (s.buf i).lock = none ∧ s.waiters i = [] ∧ ¬s.Pins i := by
  have := h.refs i
  rw [h0, State.users] at this
  refine ⟨?_, length_eq_zero_iff.mp (by omega), fun hp => by simp [hp] at this⟩
  have hl : (s.buf i).lock.toList = [] := length_eq_zero_iff.mp (by omega)
  exact toList_eq_nil_iff.mp hl

/-- A free buffer is taken for a block that is not cached, or a cached one gets another reference.
-/
theorem Counted.await (h : Counted s) (free : ∀ j, p ∉ s.waiters j)
    (hB : B = { s.buf i with refcnt := (s.buf i).refcnt + 1 } ∧ (s.buf i).dev = rootdev ∨
      B = { s.buf i with dev := rootdev, blockno := b, valid := false, refcnt := 1 } ∧
        (s.buf i).refcnt = 0 ∧ (∀ j, ¬s.Caches j b) ∧ ¬s.Pinned b) : Counted (s.await p i B) := by
  refine ⟨h.lru, ?_, ?_, ?_, ?_, ?_, ?_⟩
  · intro j k c hj hk
    have := h.keys j k c
    simp only [State.await, State.setBuf, State.Caches, update_apply] at *
    grind
  · intro j
    have := h.refs j
    simp only [State.await, State.setBuf, State.users, State.Pins, State.Pinned,
      update_apply] at *
    grind
  · intro j q
    have := h.locked j q
    have := h.refs j
    simp only [State.await, State.setBuf, State.users, update_apply] at *
    grind
  · intro j q
    have := h.sleepers j q
    have := h.refs j
    simp only [State.await, State.setBuf, State.Caches, State.users, update_apply] at *
    grind
  · intro j k q
    have := h.once j k q
    simp only [State.await, State.setBuf, update_apply] at *
    grind
  · intro j
    have := h.nodup j
    simp only [State.await, State.setBuf, update_apply] at *
    grind

theorem Committer.await (h : Committer g s) (hc : Counted s)
    (hB : B = { s.buf i with refcnt := (s.buf i).refcnt + 1 } ∧ s.Caches i b ∨
      B = { s.buf i with dev := rootdev, blockno := b, valid := false, refcnt := 1 } ∧
        (s.buf i).refcnt = 0)
    (turn : ∀ prog, s.committing = some (p, prog) → ∃ rest, prog = .bread b :: rest)
    (home : g.Region b → ∃ prog, s.committing = some (p, prog)) : Committer g (s.await p i B) := by
  have unlocked := hc.unused (i := i)
  refine ⟨?_, ?_, ?_, ?_, h.fits⟩
  · intro j q c
    have := h.own j q c
    simp only [State.await, State.setBuf, State.Caches, update_apply] at *
    grind
  · intro j q
    have := h.asleep j q
    simp only [State.await, State.setBuf, State.Caches, update_apply] at *
    grind
  · intro j q prog
    have := h.turn j q prog
    simp only [State.await, State.setBuf, State.Caches, update_apply] at *
    grind
  · intro q prog c hq hm
    obtain ⟨j, hj⟩ := h.holding q prog c hq hm
    refine ⟨j, ?_⟩
    simp only [State.await, State.setBuf, State.Caches, update_apply] at *
    grind

theorem Contents.await (h : Contents g s) (hc : Counted s)
    (hB : B = { s.buf i with refcnt := (s.buf i).refcnt + 1 } ∨
      B = { s.buf i with dev := rootdev, blockno := b, valid := false, refcnt := 1 } ∧
        (s.buf i).refcnt = 0) : Contents g (s.await p i B) := by
  refine ⟨h.logged, ?_, ?_, h.disk, h.copied⟩
  · intro j c
    have := h.data j c
    simp only [State.await, State.setBuf, State.Caches, State.shows, update_apply] at *
    grind
  · intro c hp
    obtain ⟨j, hj⟩ := h.cached c hp
    refine ⟨j, ?_⟩
    have := hc.refs j
    simp only [State.await, State.setBuf, State.Caches, State.Pins, State.Pinned,
      update_apply] at *
    grind

/-- The program of the process in `commit` after process `p` returned from `bread`. -/
def Popped (s : State) (p : Pid) (c : Option (Pid × List Instr)) : Prop :=
  (c = s.committing ∧ ∀ prog, s.committing ≠ some (p, prog)) ∨
    ∃ rest, s.committing = some (p, .bread (s.wants p) :: rest) ∧ c = some (p, rest)

theorem Committer.popped (h : Committer g s) (hp : p ∈ s.waiters i) :
    Popped s p (s.afterBread p) := by
  unfold State.afterBread
  cases e : s.committing with
  | none => exact .inl ⟨by simp [e], by simp [e]⟩
  | some c =>
    obtain ⟨q, prog⟩ := c
    by_cases hq : q = p
    · subst hq
      obtain ⟨rest, rfl⟩ := h.turn i q prog hp e
      exact .inr ⟨rest, e, by simp⟩
    · refine .inl ⟨?_, by simp [e, hq]⟩
      rw [e]
      split <;> grind

theorem Popped.pinned (h : Popped s p s'.committing) (lh : s'.lh = s.lh) (b : Nat) :
    s'.Pinned b ↔ s.Pinned b := by
  unfold State.Pinned
  rw [lh]
  rcases h with ⟨e, -⟩ | ⟨rest, e, e'⟩
  · rw [e]
  · simp [e, e']

theorem refs_congr (key : (s'.buf i).dev = (s.buf i).dev ∧
      (s'.buf i).blockno = (s.buf i).blockno) (pinned : ∀ b, s'.Pinned b ↔ s.Pinned b)
    (h : r = s'.users i + if s.Pins i then 1 else 0) :
    r = s'.users i + if s'.Pins i then 1 else 0 := by
  rw [h]
  congr 1
  refine if_congr ?_ rfl rfl
  rw [State.Pins, State.Pins, key.1, key.2, pinned]

/-- A step that leaves alone which block is in which buffer, and who holds or waits for it. -/
structure Still (s s' : State) : Prop where
  lru : s'.lru = s.lru
  key : ∀ i, (s'.buf i).dev = (s.buf i).dev ∧ (s'.buf i).blockno = (s.buf i).blockno
  valid : ∀ i, (s'.buf i).valid = (s.buf i).valid
  lock : ∀ i, (s'.buf i).lock = (s.buf i).lock
  waiters : s'.waiters = s.waiters
  wants : s'.wants = s.wants

namespace Still

theorem of_buf (lru : s'.lru = s.lru) (buf : s'.buf = update s.buf i B)
    (same : B = { s.buf i with data := B.data, refcnt := B.refcnt })
    (waiters : s'.waiters = s.waiters) (wants : s'.wants = s.wants) : Still s s' := by
  refine ⟨lru, fun j => ?_, fun j => ?_, fun j => ?_, waiters, wants⟩
  all_goals
    rw [buf]
    by_cases hj : j = i
    · rw [hj, update_self, same]
      try exact ⟨rfl, rfl⟩
    · rw [update_of_ne hj]
      try exact ⟨rfl, rfl⟩

theorem caches (st : Still s s') : s'.Caches i b ↔ s.Caches i b := by
  rw [State.Caches, State.Caches, (st.key i).1, (st.key i).2]

theorem counted (st : Still s s') (h : Counted s)
    (refs : ∀ i, (s'.buf i).refcnt = s'.users i + if s'.Pins i then 1 else 0) : Counted s' where
  lru i := st.lru ▸ h.lru i
  keys i j b hi hj := h.keys i j b (st.caches.mp hi) (st.caches.mp hj)
  refs := refs
  locked i p hl := by
    rw [(st.key i).1, st.valid]
    exact h.locked i p (st.lock i ▸ hl)
  sleepers i p hp := by
    rw [st.wants]
    exact st.caches.mpr (h.sleepers i p (st.waiters ▸ hp))
  once := st.waiters ▸ h.once
  nodup := st.waiters ▸ h.nodup

/-- The process in `commit` takes an instruction that neither takes nor releases a buffer. -/
theorem committer (st : Still s s') (h : Committer g s) (e : s.committing = some (p, instr :: rest))
    (e' : s'.committing = some (p, rest)) (hold : holds (instr :: rest) = holds rest)
    (notBread : ∀ c, instr ≠ .bread c)
    (idle : s'.panicked = s.panicked ∧ s'.outstanding = s.outstanding) (fits : Fits g s'.lh rest) :
    Committer g s' where
  own i q b hi hr hl := by
    obtain ⟨prog, hq, hb⟩ := h.own i q b (st.caches.mp hi) hr (st.lock i ▸ hl)
    cases e.symm.trans hq
    exact ⟨rest, e', hold ▸ hb⟩
  asleep i q hq hr := by
    rw [st.waiters] at hq
    obtain ⟨prog, hp⟩ := h.asleep i q hq (st.wants ▸ hr)
    cases e.symm.trans hp
    exact ⟨rest, e'⟩
  turn i q prog hq hp := by
    cases e'.symm.trans hp
    rw [st.waiters] at hq
    obtain ⟨_, eq⟩ := h.turn i p _ hq e
    exact absurd (List.cons.inj eq).1 (notBread _)
  holding q prog b hq hb := by
    cases e'.symm.trans hq
    obtain ⟨i, hi, hl⟩ := h.holding p _ b e (hold ▸ hb)
    exact ⟨i, st.caches.mpr hi, (st.lock i).trans hl⟩
  fits q prog hq := by
    cases e'.symm.trans hq
    rw [idle.1, idle.2]
    exact ⟨(h.fits p _ e).1, fits⟩

end Still

variable {c : Option (Pid × List Instr)}

theorem Counted.acquire (h : Counted s) (hp : p ∈ s.waiters i) (hl : (s.buf i).lock = none)
    (pop : Popped s p c) : Counted { s.acquire p i with committing := c } := by
  refine ⟨h.lru, ?_, ?_, ?_, ?_, ?_, ?_⟩
  · intro j k c hj hk
    have := h.keys j k c
    simp only [State.acquire, State.setBuf, State.Caches, update_apply] at *
    grind
  · intro j
    refine refs_congr (s := s) ?_ (Popped.pinned pop rfl) ?_
    · simp only [State.acquire, State.setBuf, update_apply]
      grind
    · have := h.refs j
      have erase := length_erase_of_mem hp
      have pos := length_pos_of_mem hp
      simp only [State.acquire, State.setBuf, State.users] at this ⊢
      by_cases hj : j = i
      · subst hj
        simp only [hl, toList_none, length_nil] at this
        simp only [update_self, erase, toList_some, length_singleton]
        omega
      · simpa only [update_of_ne hj] using this
  · intro j q
    have := h.locked j q
    have := h.sleepers i p hp
    simp only [State.acquire, State.setBuf, State.Caches, update_apply] at *
    grind
  · intro j q hq
    have := h.sleepers j q
    simp only [State.acquire, State.setBuf, State.Caches, update_apply] at *
    grind
  · intro j k q
    have := h.once j k q
    simp only [State.acquire, State.setBuf, update_apply] at *
    grind
  · intro j
    have := h.nodup j
    simp only [State.acquire, State.setBuf, update_apply] at *
    grind

theorem Committer.acquire (h : Committer g s) (hc : Counted s) (hp : p ∈ s.waiters i)
    (hl : (s.buf i).lock = none) (pop : Popped s p c) :
    Committer g { s.acquire p i with committing := c } := by
  have caches := hc.sleepers i p hp
  refine ⟨?_, ?_, ?_, ?_, ?_⟩
  · intro j q d
    have := h.own j q d
    have := h.asleep i p hp
    have := h.fits p
    simp only [State.acquire, State.setBuf, State.Caches, update_apply, Popped] at *
    grind [holds, Fits]
  · intro j q
    have := h.asleep j q
    simp only [State.acquire, State.setBuf, State.Caches, update_apply, Popped] at *
    grind
  · intro j q prog
    have := h.turn j q prog
    have := hc.once i j p hp
    have := hc.nodup i
    simp only [State.acquire, State.setBuf, State.Caches, update_apply, Popped] at *
    grind
  · intro q prog d hq hm
    have kept : ∀ prog', s.committing = some (q, prog') → d ∈ holds prog' →
        ∃ j, j ≠ i ∧ s.Caches j d ∧ (s.buf j).lock = some q := fun prog' e hd => by
      obtain ⟨j, hj, hlock⟩ := h.holding q prog' d e hd
      exact ⟨j, by rintro rfl; simp [hl] at hlock, hj, hlock⟩
    by_cases hd : ∃ j, j ≠ i ∧ s.Caches j d ∧ (s.buf j).lock = some q
    · obtain ⟨j, hj, hcache, hlock⟩ := hd
      exact ⟨j, by simpa [State.acquire, State.setBuf, State.Caches, hj] using hcache,
        by simpa [State.acquire, State.setBuf, hj] using hlock⟩
    · -- the buffer that was just locked
      rcases pop with ⟨rfl, -⟩ | ⟨rest, e, rfl⟩
      · exact absurd (kept prog hq hm) hd
      · obtain ⟨rfl, rfl⟩ : p = q ∧ rest = prog := by simpa using hq
        have : d = s.wants p := by
          by_contra hne
          exact hd (kept _ e (by simp [holds, hm, hne]))
        subst this
        exact ⟨i, by simpa [State.acquire, State.setBuf, State.Caches] using caches,
          by simp [State.acquire, State.setBuf]⟩
  · intro q prog hq
    have := h.fits q
    simp only [State.acquire, State.setBuf, Popped] at *
    grind [Fits]

theorem Committer.pinned (h : Committer g s) (hb : s.Pending b) : s.Pinned b := by
  refine ⟨hb.1, ?_⟩
  cases e : s.committing with
  | none => rfl
  | some c =>
    obtain ⟨q, prog⟩ := c
    simpa using (h.fits q prog e).2.bunpin_mem hb.1 (hb.2 q prog e)

theorem Inv.on_disk (h : Inv g s) (hi : s.Caches i b) (hv : (s.buf i).valid = false) :
    s.disk b = s.shows g b := by
  unfold State.shows
  split
  · rfl
  · refine h.contents.disk b ‹_› fun hp => ?_
    obtain ⟨j, hj, valid⟩ := h.contents.cached b (h.committer.pinned hp)
    obtain rfl := h.counted.keys i j b hi hj
    rw [hv] at valid; cases valid

theorem Inv.contents_acquire (hs : Inv g s) (pop : Popped s p c) :
    Contents g { s.acquire p i with committing := c } := by
  have h := hs.contents
  refine ⟨h.logged, ?_, ?_, ?_, ?_⟩
  · intro j d
    have := h.data j d
    have := hs.on_disk (i := i) (b := d)
    simp only [State.acquire, State.setBuf, State.Caches, State.shows, update_apply] at *
    grind
  · intro d hd
    have pinned : s.Pinned d := (Popped.pinned (by exact pop) (by rfl) d).mp hd
    obtain ⟨j, hj⟩ := h.cached d pinned
    refine ⟨j, ?_⟩
    simp only [State.acquire, State.setBuf, State.Caches, update_apply] at *
    grind
  · intro d hr hd
    refine h.disk d hr ?_
    simp only [State.acquire, State.setBuf, State.Pending, Popped] at *
    grind [writes_bread]
  · intro q prog t d
    have := h.copied q
    simp only [State.acquire, State.setBuf, Popped] at *
    grind [writes_bread]

/-- The program of the process in `commit` after process `p` released buffer `i`. -/
def Released (s : State) (p : Pid) (i : Index) (c : Option (Pid × List Instr)) : Prop :=
  (c = s.committing ∧ ∀ prog, s.committing ≠ some (p, prog)) ∨
    ∃ b rest, s.committing = some (p, .brelse b :: rest) ∧ s.Caches i b ∧ c = some (p, rest)

theorem Released.pinned (h : Released s p i s'.committing) (lh : s'.lh = s.lh) (b : Nat) :
    s'.Pinned b ↔ s.Pinned b := by
  unfold State.Pinned
  rw [lh]
  rcases h with ⟨e, -⟩ | ⟨b, rest, e, -, e'⟩
  · rw [e]
  · simp [e, e']

theorem brelse_eq (hl : (s.buf i).lock = some p) : s.brelse p i =
    { s.setBuf i { s.buf i with lock := none, refcnt := (s.buf i).refcnt - 1 } with
      lru := if (s.buf i).refcnt - 1 = 0 then i :: s.lru.erase i else s.lru } := by
  simp [State.brelse, hl]

theorem Counted.brelse (h : Counted s) (hl : (s.buf i).lock = some p) (rel : Released s p i c) :
    Counted { s.brelse p i with committing := c } := by
  rw [brelse_eq hl]
  refine ⟨?_, ?_, ?_, ?_, ?_, ?_, h.nodup⟩
  · intro j
    have := h.lru j
    by_cases hj : j = i
    · grind
    · grind
  · intro j k c hj hk
    have := h.keys j k c
    simp only [State.setBuf, State.Caches, update_apply] at *
    grind
  · intro j
    refine refs_congr (s := s) ?_ (Released.pinned rel rfl) ?_
    · simp only [State.setBuf, update_apply]
      grind
    · have := h.refs j
      simp only [State.setBuf, State.users] at this ⊢
      by_cases hj : j = i
      · subst hj
        simp only [hl, toList_some, length_singleton] at this
        simp only [update_self, toList_none, length_nil]
        omega
      · simpa only [update_of_ne hj] using this
  · intro j q
    have := h.locked j q
    simp only [State.setBuf, update_apply] at *
    grind
  · intro j q hq
    have := h.sleepers j q
    simp only [State.setBuf, State.Caches, update_apply] at *
    grind
  · exact h.once

theorem Committer.brelse (h : Committer g s) (hc : Counted s) (hl : (s.buf i).lock = some p)
    (rel : Released s p i c) : Committer g { s.brelse p i with committing := c } := by
  rw [brelse_eq hl]
  refine ⟨?_, ?_, ?_, ?_, ?_⟩
  · intro j q d
    have := h.own j q d
    have := hc.keys i j d
    simp only [State.setBuf, State.Caches, update_apply, Released] at *
    grind [holds]
  · intro j q
    have := h.asleep j q
    simp only [State.setBuf, Released] at *
    grind
  · intro j q prog
    have := h.turn j q
    simp only [State.setBuf, Released] at *
    grind
  · intro q prog d hq hm
    obtain ⟨j, hne, hj, hlock⟩ : ∃ j, j ≠ i ∧ s.Caches j d ∧ (s.buf j).lock = some q := by
      rcases rel with ⟨rfl, other⟩ | ⟨b, rest, e, hb, rfl⟩
      · obtain ⟨j, hj, hlock⟩ := h.holding q prog d hq hm
        refine ⟨j, ?_, hj, hlock⟩
        rintro rfl
        obtain rfl : p = q := by simpa [hl] using hlock
        exact other prog hq
      · obtain ⟨rfl, rfl⟩ : p = q ∧ rest = prog := by simpa using hq
        obtain ⟨j, hj, hlock⟩ := h.holding p _ d e (mem_cons_of_mem b hm)
        refine ⟨j, ?_, hj, hlock⟩
        rintro rfl
        exact (h.fits p _ e).2.1 (hb.2.symm.trans hj.2 ▸ hm)
    exact ⟨j, by simpa [State.setBuf, State.Caches, hne] using hj,
      by simpa [State.setBuf, hne] using hlock⟩
  · intro q prog hq
    have := h.fits q
    simp only [State.setBuf, Released] at *
    grind [Fits]

theorem Contents.brelse (h : Contents g s) (hl : (s.buf i).lock = some p)
    (rel : Released s p i c) : Contents g { s.brelse p i with committing := c } := by
  rw [brelse_eq hl]
  refine ⟨h.logged, ?_, ?_, ?_, ?_⟩
  · intro j d
    have := h.data j d
    simp only [State.setBuf, State.Caches, State.shows, update_apply] at *
    grind
  · intro d hd
    have pinned : s.Pinned d := (Released.pinned (by exact rel) (by rfl) d).mp hd
    obtain ⟨j, hj⟩ := h.cached d pinned
    refine ⟨j, ?_⟩
    simp only [State.setBuf, State.Caches, update_apply] at *
    grind
  · intro d hr hd
    refine h.disk d hr ?_
    simp only [State.setBuf, State.Pending, Released] at *
    grind [writes_brelse]
  · intro q prog t d
    have := h.copied q
    simp only [State.setBuf, Released] at *
    grind [writes_brelse]

theorem Inv.account (h : Inv g s)
    (idle : ∀ c, s.committing = some c → panicked = none → outstanding = 0) :
    Inv g { s with panicked := panicked, outstanding := outstanding, inOp := inOp } where
  counted := { h.counted with }
  committer :=
    { h.committer with fits := fun p prog e => ⟨idle _ e, (h.committer.fits p prog e).2⟩ }
  contents := { h.contents with }

theorem Inv.panic (h : Inv g s) (why : Panic) : Inv g (s.panic why) :=
  h.account fun _ _ => by nofun

theorem Committer.none_of_outstanding (h : Committer g s) (alive : s.panicked = none)
    (ho : ¬s.outstanding < 1) : s.committing = none := by
  cases e : s.committing with
  | none => rfl
  | some c =>
    have := (h.fits c.1 c.2 e).1 alive
    omega

theorem Committer.home (h : Committer g s) (hn : s.committing = none) (hi : s.Caches i b)
    (hl : (s.buf i).lock = some p) : ¬g.Region b := fun hr => by
  obtain ⟨prog, e, -⟩ := h.own i p b hi hr hl
  rw [hn] at e; cases e

section

variable (h : Inv g s)

include h

/-- The holder of buffer `i` logs block `b`: the header holds it once, and it is pinned once. -/
theorem Inv.log (hn : s.committing = none) (hl : (s.buf i).lock = some p)
    (hb : (s.buf i).blockno = b) (room : s.lh.length + 1 < g.size) (data : Block)
    (added : b ∈ s.lh ∧ lh = s.lh ∧ r = (s.buf i).refcnt ∨
      b ∉ s.lh ∧ lh = s.lh ++ [b] ∧ r = (s.buf i).refcnt + 1) :
    Inv g { s.setBuf i { s.buf i with data := data, refcnt := r } with
      lh := lh, L := update s.L b data } := by
  obtain ⟨counted, committer, contents⟩ := h
  have hi : s.Caches i b := ⟨(counted.locked i p hl).1, hb⟩
  have home := committer.home hn hi hl
  have valid := (counted.locked i p hl).2
  have mem : ∀ c, c ∈ lh ↔ c ∈ s.lh ∨ c = b := by grind
  have still : Still s { s.setBuf i { s.buf i with data := data, refcnt := r } with
      lh := lh, L := update s.L b data } := .of_buf rfl rfl rfl rfl rfl
  refine ⟨still.counted counted ?_, ⟨?_, committer.asleep, committer.turn, ?_, ?_⟩,
    ⟨⟨?_, ?_, ?_⟩, ?_, ?_, ?_, ?_⟩⟩
  · intro j
    have := counted.refs j
    have := counted.keys i j b
    simp only [State.setBuf, State.users, State.Pins, State.Pinned, State.Caches,
      update_apply, hn, all_none] at *
    grind
  · intro j q c hj hr hl
    exact committer.own j q c (still.caches.mp hj) hr ((still.lock j).symm.trans hl)
  · intro q prog c hq
    simp [State.setBuf, hn] at hq
  · intro q prog hq
    simp [State.setBuf, hn] at hq
  · have := contents.logged.nodup
    grind [nodup_append]
  · have := contents.logged.home
    grind
  · grind
  · intro j c
    have := contents.data j c
    have := counted.keys i j c
    simp only [State.setBuf, State.Caches, State.shows, update_apply] at *
    grind
  · intro c hc
    by_cases he : c = b
    · subst he
      exact ⟨i, by simpa [State.setBuf, State.Caches] using hi, by simpa [State.setBuf] using valid⟩
    · have : s.Pinned c := by
        simpa [State.Pinned, State.setBuf, mem, he] using hc
      obtain ⟨j, hj⟩ := contents.cached c this
      refine ⟨j, ?_⟩
      simp only [State.setBuf, State.Caches, update_apply] at *
      grind
  · intro c hr hc
    have := contents.disk c hr
    simp only [State.setBuf, State.Pending, update_apply] at *
    grind
  · intro q prog t c hq
    simp [State.setBuf, hn] at hq

theorem Inv.logWrite (alive : s.panicked = none) (hl : (s.buf i).lock = some p) (data : Block) :
    Inv g (s.logWrite g i data) := by
  simp only [State.logWrite]
  split
  · exact h.panic .tooBig
  split
  · exact h.panic .outside
  rename_i room ho
  have hn := h.committer.none_of_outstanding alive ho
  have room' : s.lh.length + 1 < g.size := by omega
  split
  · exact h.log hn hl rfl room' data (.inl ⟨‹_›, rfl, rfl⟩)
  · exact h.log hn hl rfl room' data (.inr ⟨‹_›, rfl, rfl⟩)

theorem Inv.beginOp (hs : s.beginOp p = some s') : Inv g s' := by
  unfold State.beginOp at hs
  split at hs
  · cases hs
  · rename_i hn
    cases hs
    refine h.account fun c e => absurd ?_ (not_or.mp hn).1
    rw [e]
    nofun

theorem Inv.startCommit (hn : s.committing = none) (free : ∀ j, p ∉ s.waiters j) : Inv g { s with
      outstanding := 0, inOp := inOp, committing := some (p, commit g.start s.lh) } := by
  obtain ⟨counted, committer, contents⟩ := h
  obtain ⟨fits, hold⟩ := fits_commit contents.logged
  have pinned : ∀ b, ({ s with
      outstanding := 0, inOp := inOp, committing := some (p, commit g.start s.lh) } : State).Pinned b
        ↔ s.Pinned b := by
    intro b
    have : b ∈ s.lh → .bunpin b ∈ commit g.start s.lh := fun hb => (mem_commit g.start hb).2
    simp only [State.Pinned, hn, all_some, all_none, decide_eq_true_eq]
    grind
  refine ⟨⟨counted.lru, counted.keys, ?_, counted.locked, counted.sleepers, counted.once,
    counted.nodup⟩, ⟨?_, ?_, ?_, ?_, ?_⟩, ⟨contents.logged, contents.data, ?_, ?_, ?_⟩⟩
  · intro j
    exact refs_congr (s := s) ⟨rfl, rfl⟩ pinned (counted.refs j)
  · intro j q c hj hr hl
    exact absurd hr (committer.home hn hj hl)
  · intro j q hq hr
    obtain ⟨prog, e⟩ := committer.asleep j q hq hr
    rw [hn] at e; cases e
  · intro j q prog hq e
    cases e
    exact absurd hq (free j)
  · intro q prog c e hc
    cases e
    rw [hold] at hc; cases hc
  · intro q prog e
    cases e
    exact ⟨fun _ => rfl, fits⟩
  · intro c hc
    exact contents.cached c ((pinned c).mp hc)
  · intro c hr hc
    refine contents.disk c hr fun hp => hc ⟨hp.1, fun q prog e => ?_⟩
    cases e
    exact (mem_commit g.start hp.1).1
  · intro q prog t c e ht hw
    cases e
    exact absurd (writes_commit g.start ht) hw

theorem Inv.endOp (free : s.Free p) : Inv g (s.endOp g p) := by
  have idle : ∀ j, p ∉ s.waiters j := fun j hj => free.1 ⟨j, hj⟩
  simp only [State.endOp]
  split
  · exact h.account fun _ _ => by nofun
  · rename_i hn
    have hn := not_not.mp hn
    split
    · rename_i h0
      simp only [h0]
      exact h.startCommit hn idle
    · refine h.account fun c e => ?_
      rw [hn] at e; cases e

/-- `commit` writes `data` to the buffer of block `b` and to the disk: what `L` has for a home
block. -/
theorem Inv.put (e : s.committing = some (p, instr :: rest))
    (hold : holds (instr :: rest) = holds rest) (unpins : ∀ c, instr ≠ .bunpin c)
    (fits : Fits g s.lh rest) (hi : s.Caches i b)
    (writes : ∀ c, Writes c (instr :: rest) → c = b ∨ Writes c rest)
    (home : ¬g.Region b → data = s.L b)
    (copy : ∀ t c, s.lh[t]? = some c → b = g.start + t + 1 → data = s.L c)
    (notBread : ∀ c, instr ≠ .bread c) :
    Inv g { s.put i data with committing := some (p, rest) } := by
  obtain ⟨counted, committer, contents⟩ := h
  have pinned : ∀ c, ({ s.put i data with committing := some (p, rest) } : State).Pinned c ↔
      s.Pinned c := by
    intro c
    simp only [State.Pinned, State.put, State.setBuf, e, all_some]
    simp [Ne.symm (unpins c)]
  have still : Still s { s.put i data with committing := some (p, rest) } :=
    .of_buf rfl rfl rfl rfl rfl
  refine ⟨still.counted counted ?_, still.committer committer e rfl hold notBread ⟨rfl, rfl⟩ fits,
    ⟨contents.logged, ?_, ?_, ?_, ?_⟩⟩
  · intro j
    refine refs_congr (still.key j) pinned ?_
    have := counted.refs j
    simp only [State.put, State.setBuf, State.users, update_apply] at *
    grind
  · intro j c
    have := contents.data j c
    have := counted.keys i j c
    simp only [State.put, State.setBuf, State.Caches, State.shows, update_apply] at *
    grind
  · intro c hc
    obtain ⟨j, hj⟩ := contents.cached c ((pinned c).mp hc)
    refine ⟨j, ?_⟩
    simp only [State.put, State.setBuf, State.Caches, update_apply] at *
    grind
  · intro c hr hc
    by_cases hcb : c = b
    · subst hcb
      simpa [State.put, State.setBuf, hi.2] using home hr
    · have hd : s.disk c = s.L c := contents.disk c hr fun hp => hc ⟨hp.1, fun q prog hq => by
        obtain ⟨rfl, rfl⟩ : p = q ∧ rest = prog := by simpa using hq
        exact (writes c (hp.2 p _ e)).resolve_left hcb⟩
      simpa [State.put, State.setBuf, hi.2, hcb] using hd
  · intro q prog t c hq ht hw
    obtain ⟨rfl, rfl⟩ : p = q ∧ rest = prog := by simpa using hq
    by_cases hcb : g.start + t + 1 = b
    · simpa [State.put, State.setBuf, hi.2, hcb] using copy t c ht hcb.symm
    · have := contents.copied p _ t c e ht fun hw' => hw ((writes _ hw').resolve_left hcb)
      simpa [State.put, State.setBuf, hi.2, hcb] using this

theorem Inv.bunpin (e : s.committing = some (p, .bunpin b :: rest)) (hi : s.Caches i b) :
    Inv g { s.setBuf i { s.buf i with refcnt := (s.buf i).refcnt - 1 } with
      committing := some (p, rest) } := by
  obtain ⟨counted, committer, contents⟩ := h
  obtain ⟨-, ⟨hb, hlh, last⟩, fits⟩ := committer.fits p _ e
  have pinned : ∀ c, ({ s.setBuf i { s.buf i with refcnt := (s.buf i).refcnt - 1 } with
      committing := some (p, rest) } : State).Pinned c ↔ s.Pinned c ∧ c ≠ b := by
    intro c
    simp only [State.Pinned, State.setBuf, e, all_some, decide_eq_true_eq, mem_cons,
      Instr.bunpin.injEq]
    grind
  have hp : s.Pinned b := ⟨hlh, by simp [e]⟩
  have still : Still s { s.setBuf i { s.buf i with refcnt := (s.buf i).refcnt - 1 } with
      committing := some (p, rest) } := .of_buf rfl rfl rfl rfl rfl
  refine ⟨still.counted counted ?_, still.committer committer e rfl rfl nofun ⟨rfl, rfl⟩ fits,
    ⟨contents.logged, ?_, ?_, ?_, ?_⟩⟩
  · intro j
    have := counted.refs j
    have := counted.keys i j b hi
    simp only [State.Pins, pinned] at *
    simp only [State.setBuf, State.users, State.Caches, update_apply] at *
    grind
  · intro j c
    have := contents.data j c
    simp only [State.setBuf, State.Caches, State.shows, update_apply] at *
    grind
  · intro c hc
    obtain ⟨j, hj⟩ := contents.cached c ((pinned c).mp hc).1
    refine ⟨j, ?_⟩
    simp only [State.setBuf, State.Caches, update_apply] at *
    grind
  · intro c hr hc
    refine contents.disk c hr fun hp => hc ⟨hp.1, fun q prog hq => ?_⟩
    obtain ⟨rfl, rfl⟩ : p = q ∧ rest = prog := by simpa using hq
    exact writes_bunpin.mp (hp.2 p _ e)
  · intro q prog t c hq ht hw
    obtain ⟨rfl, rfl⟩ : p = q ∧ rest = prog := by simpa using hq
    exact contents.copied p _ t c e ht fun hw' => hw (writes_bunpin.mp hw')

theorem Inv.clear (e : s.committing = some (p, .clear :: rest)) :
    Inv g { s with lh := [], committing := some (p, rest) } := by
  obtain ⟨counted, committer, contents⟩ := h
  obtain ⟨-, done, fits⟩ := committer.fits p _ e
  have unpinned : ∀ c, ¬s.Pinned c := fun c hc => by
    have := hc.2
    simp only [e, all_some, decide_eq_true_eq, mem_cons, reduceCtorEq, false_or] at this
    exact (done c hc.1).2 this
  have unpinned' : ∀ c, ¬({ s with lh := [], committing := some (p, rest) } : State).Pinned c :=
    fun c hc => by cases hc.1
  have still : Still s { s with lh := [], committing := some (p, rest) } :=
    ⟨rfl, fun _ => ⟨rfl, rfl⟩, fun _ => rfl, fun _ => rfl, rfl, rfl⟩
  refine ⟨still.counted counted fun j => refs_congr (s := s) ⟨rfl, rfl⟩
      (fun c => iff_of_false (unpinned' c) (unpinned c)) (counted.refs j),
    still.committer committer e rfl rfl nofun ⟨rfl, rfl⟩ fits,
    ⟨⟨by simp, by simp, g.header⟩, contents.data, ?_, ?_, ?_⟩⟩
  · intro c hc
    exact absurd hc (unpinned' c)
  · intro c hr _
    exact contents.disk c hr fun hp => (done c hp.1).1 (writes_clear.mp (hp.2 p _ e))
  · intro q prog t c _ ht
    cases ht

theorem Inv.finish (e : s.committing = some (p, [])) :
    Inv g { s with committing := none } := by
  obtain ⟨counted, committer, contents⟩ := h
  have empty : s.lh = [] := (committer.fits p _ e).2
  have pinned : ∀ c, ({ s with committing := none } : State).Pinned c ↔ s.Pinned c := fun c =>
    iff_of_false (fun hc => by rw [State.Pinned, empty] at hc; cases hc.1)
      (fun hc => by rw [State.Pinned, empty] at hc; cases hc.1)
  refine ⟨⟨counted.lru, counted.keys, ?_, counted.locked, counted.sleepers, counted.once,
    counted.nodup⟩, ⟨?_, ?_, ?_, ?_, ?_⟩, ⟨contents.logged, contents.data, ?_, ?_, ?_⟩⟩
  · intro j
    exact refs_congr (s := s) ⟨rfl, rfl⟩ pinned (counted.refs j)
  · intro j q c hj hr hl
    obtain ⟨prog, hq, hc⟩ := committer.own j q c hj hr hl
    rw [e] at hq; cases hq; cases hc
  · intro j q hq hr
    obtain ⟨prog, hprog⟩ := committer.asleep j q hq hr
    obtain ⟨rest, hrest⟩ := committer.turn j q prog hq hprog
    rw [e] at hprog; cases hprog; cases hrest
  · intro j q prog _ hq; cases hq
  · intro q prog c hq; cases hq
  · intro q prog hq; cases hq
  · intro c hc
    exact contents.cached c ((pinned c).mp hc)
  · intro c hr _
    refine contents.disk c hr fun hp => ?_
    rw [State.Pending, empty] at hp; cases hp.1
  · intro q prog t c hq; cases hq

end

theorem held_spec (hh : s.held p b = some i) : s.Caches i b ∧ (s.buf i).lock = some p := by
  have := List.find?_some hh
  simpa using this

theorem Committer.held (h : Committer g s) (e : s.committing = some (p, prog))
    (hb : b ∈ holds prog) : ∃ i, s.held p b = some i := by
  obtain ⟨i, hi⟩ := h.holding p prog b e hb
  refine isSome_iff_exists.mp (List.find?_isSome.mpr ⟨i, mem_finRange i, ?_⟩)
  simpa using hi

/-- Every instruction of `commit` but `bread` can be taken when its turn comes, and keeps the
invariant. -/
theorem Inv.run (h : Inv g s) (e : s.committing = some (p, instr :: rest))
    (hb : ∀ b, instr ≠ .bread b) :
    ∃ s', s.run g p instr = some s' ∧ Inv g { s' with committing := some (p, rest) } := by
  have fits := (h.committer.fits p _ e).2
  have logged := h.contents.logged
  cases instr with
  | bread b => exact absurd rfl (hb b)
  | copy dst src =>
    obtain ⟨⟨hdst, hsrc, -, t, payload⟩, hrest⟩ := fits
    obtain ⟨d, hd⟩ := h.committer.held e hdst
    obtain ⟨f, hf⟩ := h.committer.held e hsrc
    obtain ⟨cacheD, lockD⟩ := held_spec hd
    obtain ⟨cacheF, lockF⟩ := held_spec hf
    have data := h.contents.data f src cacheF (h.counted.locked f p lockF).2
    refine ⟨s.put d (s.buf f).data, by simp [State.run, hd, hf], h.put e rfl (fun _ => by simp) hrest cacheD
      (fun c hw => (writes_copy.mp hw).imp_left Eq.symm) ?_ ?_ (fun _ => by simp)⟩
    · intro hr
      rcases payload with ⟨ht, rfl⟩ | ⟨ht, rfl, hw⟩
      · exact absurd (logged.region ht) hr
      · rw [data, State.shows, if_pos (logged.region ht)]
        refine h.contents.copied p _ t dst e ht fun hw' => ?_
        rcases writes_copy.mp hw' with hn | hw'
        · exact hr (hn ▸ logged.region ht)
        · exact hw hw'
    · intro t' c ht' hn
      rcases payload with ⟨ht, rfl⟩ | ⟨ht, rfl, hw⟩
      · obtain rfl : t = t' := by omega
        obtain rfl : src = c := by simpa [ht] using ht'
        rw [data, State.shows, if_neg (logged.home src (mem_of_getElem? ht))]
      · exact absurd (hn ▸ logged.region ht') (logged.home dst (mem_of_getElem? ht))
  | putHead =>
    obtain ⟨i, hi⟩ := h.committer.held e fits.1
    have header : g.Region g.start := ⟨le_rfl, by have := g.header; omega⟩
    exact ⟨_, by rw [State.run, hi]; rfl, h.put e rfl
      (fun _ => by simp) fits.2 (held_spec hi).1 (fun c hw => .inr (writes_putHead.mp hw)) (fun hr => absurd header hr)
      (fun t c _ hn => by omega) (fun _ => by simp)⟩
  | bunpin b =>
    obtain ⟨i, hi⟩ := h.committer.held e fits.1.1
    exact ⟨_, by simp [State.run, hi], h.bunpin e (held_spec hi).1⟩
  | brelse b =>
    obtain ⟨i, hi⟩ := h.committer.held e mem_cons_self
    obtain ⟨caches, lock⟩ := held_spec hi
    have rel : Released s p i (some (p, rest)) := .inr ⟨b, rest, e, caches, rfl⟩
    exact ⟨_, by simp [State.run, hi], h.counted.brelse lock rel,
      h.committer.brelse h.counted lock rel, h.contents.brelse lock rel⟩
  | clear => exact ⟨_, rfl, h.clear e⟩

theorem Inv.bget (h : Inv g s) (free : ∀ j, p ∉ s.waiters j)
    (turn : ∀ prog, s.committing = some (p, prog) → ∃ rest, prog = .bread b :: rest)
    (home : g.Region b → ∃ prog, s.committing = some (p, prog)) : Inv g (s.bget p b) := by
  unfold State.bget
  split
  · rename_i i hi
    have caches : s.Caches i b := by simpa using List.find?_some hi
    exact ⟨h.counted.await (b := b) free (.inl ⟨rfl, caches.1⟩),
      h.committer.await h.counted (.inl ⟨rfl, caches⟩) turn home,
      h.contents.await h.counted (b := b) (.inl rfl)⟩
  · rename_i miss
    have uncached : ∀ j, ¬s.Caches j b := fun j hj => by
      have := List.find?_eq_none.mp miss j (h.counted.lru j)
      simp [hj] at this
    split
    · rename_i i hi
      have unused : (s.buf i).refcnt = 0 := by simpa using List.find?_some hi
      refine ⟨h.counted.await free (.inr ⟨rfl, unused, uncached, fun hp => ?_⟩),
        h.committer.await h.counted (.inr ⟨rfl, unused⟩) turn home,
        h.contents.await h.counted (.inr ⟨rfl, unused⟩)⟩
      obtain ⟨j, hj, -⟩ := h.contents.cached b hp
      exact uncached j hj
    · exact h.panic .noBuffers

theorem Inv.commitStep (h : Inv g s) (hs : s.commitStep g = some s') : Inv g s' := by
  unfold State.commitStep at hs
  split at hs
  · cases hs
  · rename_i p e
    cases hs
    exact h.finish e
  · rename_i p b rest e
    split at hs
    · cases hs
    · rename_i hw
      cases hs
      refine h.bget (fun j hj => hw ⟨j, hj⟩) (fun prog hp => ?_) fun _ => ⟨_, e⟩
      obtain rfl : .bread b :: rest = prog := by simpa [e] using hp
      exact ⟨rest, rfl⟩
  · rename_i p instr rest notBread e
    obtain ⟨s1, h1, inv⟩ := h.run e notBread
    rw [h1] at hs
    cases hs
    exact inv

theorem Inv.step (h : Inv g s) (ok : OverHome g s l) (hs : step g l s = some s') : Inv g s' := by
  unfold Bio.step at hs
  split at hs
  · cases hs
  rename_i alive
  have alive := not_not.mp alive
  cases l with
  | bread p b =>
    obtain ⟨free, rfl⟩ := guarded hs
    exact h.bget (fun j hj => free.1 ⟨j, hj⟩) (fun prog e => absurd rfl (free.2 _ e))
      fun hr => absurd hr ok
  | acquire p i =>
    obtain ⟨⟨hp, hl⟩, rfl⟩ := guarded hs
    have pop := h.committer.popped hp
    exact ⟨h.counted.acquire hp hl pop, h.committer.acquire h.counted hp hl pop,
      h.contents_acquire pop⟩
  | logWrite p i data =>
    obtain ⟨⟨-, hl⟩, rfl⟩ := guarded hs
    exact h.logWrite alive hl data
  | brelse p i =>
    obtain ⟨free, rfl⟩ := guarded hs
    by_cases hl : (s.buf i).lock = some p
    · have rel : Released s p i s.committing := .inl ⟨rfl, fun prog e => free.2 _ e rfl⟩
      have e : s.brelse p i = { s.brelse p i with committing := s.committing } := by
        rw [brelse_eq hl]; rfl
      rw [e]
      exact ⟨h.counted.brelse hl rel, h.committer.brelse h.counted hl rel, h.contents.brelse hl rel⟩
    · rw [State.brelse, if_pos hl]
      exact h.panic .brelse
  | beginOp p =>
    simp only [ite_none_right_eq_some] at hs
    exact h.beginOp hs.2
  | endOp p =>
    obtain ⟨⟨free, -⟩, rfl⟩ := guarded hs
    exact h.endOp free
  | commit => exact h.commitStep hs

theorem Start.inv (h : Start s) : Inv g s := by
  obtain ⟨lru, unused, keys, data, ⟨lh, outstanding, committing⟩, contents⟩ := h
  have unpinned : ∀ i, ¬s.Pins i := fun i hp => by
    have := hp.2.1
    rw [lh] at this; cases this
  refine ⟨⟨lru, keys, ?_, ?_, ?_, ?_, ?_⟩, ⟨?_, ?_, ?_, ?_, ?_⟩, ⟨?_, ?_, ?_, ?_, ?_⟩⟩
  · intro i
    simp [State.users, unused i, unpinned i]
  · intro i p hl
    simp [unused i] at hl
  · intro i p hp
    simp [unused i] at hp
  · intro i j p hp
    simp [unused i] at hp
  · intro i
    simp [unused i]
  · intro i p b _ _ hl
    simp [unused i] at hl
  · intro i p hp
    simp [unused i] at hp
  · intro i p prog hp
    simp [unused i] at hp
  · intro p prog b e
    simp [committing] at e
  · intro p prog e
    simp [committing] at e
  · rw [lh]
    exact ⟨by simp, by simp, g.header⟩
  · intro i b hi hv
    rw [data i hi.1 hv, hi.2, State.shows, contents, ite_self]
  · intro b hp
    have := hp.1
    rw [lh] at this; cases this
  · intro b _ _
    rw [contents]
  · intro p prog t b e
    simp [committing] at e

end Xv6.Bio
