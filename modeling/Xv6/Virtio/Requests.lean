import Xv6.Virtio.Descriptors

/-! The protocol of the driver with the device. A request has three descriptors of its own until its
caller goes on, and it is in the avail ring, with the device, in the used ring, or its caller has
been woken. At most two requests have descriptors at a time, so neither ring fills up. -/

namespace Xv6.Virtio

open Transition Function List

variable {P B : Type} {k : Nat}

def Pc.buf : Pc B → Option B
  | idle => none
  | rw b _ | wait b _ _ => some b

namespace State

variable (s : State P B)

/-- The request `r` has the number `k`, and its caller has not gone on. -/
def Active (k : Nat) (r : Request P B) : Prop := s.reqs[k]? = some r ∧ k ∉ s.resumed

/-- The requests that the driver has not found in the used ring. -/
def flight : List Nat := s.pending ++ s.held.map Prod.snd ++ s.finished

def head (k : Nat) : Nat := (s.reqs[k]?.map fun r => r.chain.head).getD 0

end State

/-- The active requests are those of processes in `wait`, each with its three descriptors and
buffer; no other is taken. -/
structure Chains (s : State P B) : Prop where
  formatted : ∀ k r, s.Active k r → Formatted s.disk r
  waits : ∀ k r, s.Active k r → s.pc r.proc = .wait r.command.buf r.chain k
  active : ∀ p b c k, s.pc p = .wait b c k → ∃ r, s.Active k r ∧ r.proc = p
  owner : ∀ p b, (s.pc p).buf = some b → s.owner b = some p
  apart : ∀ k k' r r', s.Active k r → s.Active k' r' → k ≠ k' →
    r.chain.toList.Disjoint r'.chain.toList
  free : ∀ i, i < num → s.disk.free i = false → ∃ k r, s.Active k r ∧ i ∈ r.chain.toList
  once : s.resumed.Nodup
  past : ∀ k ∈ s.resumed, k < s.reqs.length

/-- A request that the driver has not found in the used ring is active; `b->disk` says so, and a
caller sleeps only then. -/
structure Phases (s : State P B) : Prop where
  nodup : s.flight.Nodup
  active : ∀ k ∈ s.flight, ∃ r, s.Active k r
  disk : ∀ k r, s.Active k r → ((s.buf r.command.buf).disk = true ↔ k ∈ s.flight)
  asleep : ∀ k r, s.Active k r → s.asleep r.proc = true → k ∈ s.flight

/-- The rings and the device have the heads of the requests. -/
structure Rings (s : State P B) : Prop where
  avail : Ring.Holds s.disk.avail.ring s.seen s.disk.avail.idx
    (s.pending.map fun k => UInt16.ofNat (s.head k))
  held : ∀ id k, (id, k) ∈ s.held → id = UInt16.ofNat (s.head k)
  used : Ring.Holds s.disk.used.ring s.disk.usedIdx s.disk.used.idx
    (s.finished.map fun k => UInt32.ofNat (s.head k))
  status : ∀ k ∈ s.finished, (s.disk.info (s.head k)).status = 0

/-- The device has completed each request that is not before it or with it, once, with the command
in its descriptors. -/
structure History (s : State P B) : Prop where
  completed : ∀ k, k ∈ s.completed.map Prod.fst ↔
    k < s.reqs.length ∧ k ∉ s.pending ∧ k ∉ s.held.map Prod.snd
  once : (s.completed.map Prod.fst).Nodup
  command : ∀ k cmd, (k, cmd) ∈ s.completed → ∃ r, s.reqs[k]? = some r ∧ cmd = some r.command

structure Inv (s : State P B) : Prop where
  panic : s.panicked = none
  chains : Chains s
  phases : Phases s
  rings : Rings s
  history : History s

section

variable {s s' : State P B} {k k' : Nat} {r r' : Request P B}

theorem State.Active.lt (h : s.Active k r) : k < s.reqs.length := by
  obtain ⟨lt, -⟩ := List.getElem?_eq_some_iff.mp h.1
  exact lt

theorem State.Active.unique (h : s.Active k r) (h' : s.Active k r') : r = r' :=
  Option.some.inj (h.1.symm.trans h'.1)

theorem State.Active.head (h : s.Active k r) : s.head k = r.chain.head := by
  unfold State.head
  rw [h.1]
  rfl

theorem Chains.number (h : Chains s) (act : s.Active k r) (act' : s.Active k' r')
    (same : r.proc = r'.proc) : k = k' := by
  have waits := h.waits k r act
  rw [same, h.waits k' r' act'] at waits
  exact (Pc.wait.inj waits).2.2.symm

theorem Chains.number_of_buf (h : Chains s) (act : s.Active k r) (act' : s.Active k' r')
    (same : r.command.buf = r'.command.buf) : k = k' := by
  have mine := h.owner r.proc r.command.buf (by rw [h.waits k r act]; rfl)
  have other := h.owner r'.proc r'.command.buf (by rw [h.waits k' r' act']; rfl)
  rw [same, other] at mine
  exact h.number act act' (Option.some.inj mine).symm

theorem Chains.request_of_wait (h : Chains s) (at_ : s.pc p = .wait b c k) :
    ∃ r, s.Active k r ∧ r.proc = p ∧ r.command.buf = b ∧ r.chain = c := by
  obtain ⟨r, act, rfl⟩ := h.active p b c k at_
  have waits := h.waits k r act
  rw [at_] at waits
  obtain ⟨rfl, rfl, -⟩ := Pc.wait.inj waits
  exact ⟨r, act, rfl, rfl, rfl⟩

/-- There are descriptors for two active requests only. -/
theorem Chains.few (h : Chains s) {ks : List Nat} (nodup : ks.Nodup)
    (active : ∀ k ∈ ks, ∃ r, s.Active k r) : ks.length ≤ 2 := by
  let chain : Nat → List Nat := fun k => ((s.reqs[k]?).map fun r => r.chain.toList).getD []
  have of_active : ∀ k r, s.Active k r → chain k = r.chain.toList := fun k r act => by
    show ((s.reqs[k]?).map _).getD [] = _
    rw [act.1]
    rfl
  have distinct : (ks.flatMap chain).Nodup := by
    refine nodup_flatMap.mpr ⟨fun k hk => ?_, nodup.imp_of_mem fun {k k'} hk hk' ne => ?_⟩
    · obtain ⟨r, act⟩ := active k hk
      rw [of_active k r act]
      exact (h.formatted k r act).nodup
    · obtain ⟨r, act⟩ := active k hk
      obtain ⟨r', act'⟩ := active k' hk'
      show (chain k).Disjoint (chain k')
      rw [of_active k r act, of_active k' r' act']
      exact h.apart k k' r r' act act' ne
  have bound : ks.flatMap chain ⊆ List.range num := by
    intro i hi
    obtain ⟨k, hk, hi⟩ := mem_flatMap.mp hi
    obtain ⟨r, act⟩ := active k hk
    rw [of_active k r act] at hi
    exact mem_range.mpr ((h.formatted k r act).bound i hi)
  have length : (ks.flatMap chain).length = 3 * ks.length := by
    have three : ∀ k ∈ ks, (chain k).length = 3 := fun k hk => by
      obtain ⟨r, act⟩ := active k hk
      rw [of_active k r act]
      rfl
    rw [length_flatMap, map_congr_left three, map_const', sum_replicate,
      smul_eq_mul, Nat.mul_comm]
  have all := (distinct.subperm bound).length_le
  rw [length, length_range, show num = 8 from rfl] at all
  omega

theorem Inv.pending_le (h : Inv s) : s.pending.length ≤ 2 := by
  have sub : s.pending.Sublist s.flight :=
    (sublist_append_left ..).trans (sublist_append_left ..)
  exact h.chains.few (h.phases.nodup.sublist sub) fun k hk => h.phases.active k (sub.subset hk)

theorem Inv.finished_le (h : Inv s) : s.finished.length ≤ 2 := by
  have sub : s.finished.Sublist s.flight := sublist_append_right ..
  exact h.chains.few (h.phases.nodup.sublist sub) fun k hk => h.phases.active k (sub.subset hk)

theorem Chains.not_rw (h : Chains s) (at_ : s.pc p = .rw b write)
    (act : s.Active k r) : r.proc ≠ p := by
  rintro rfl
  rw [h.waits k r act] at at_
  cases at_

theorem Took.other (h : Chains s) (took : Took s idx s') (act : s.Active k r)
    (hi : i ∈ r.chain.toList) : i ∉ idx := by
  intro hc
  have taken := (h.formatted k r act).taken i hi
  rw [took.free i hc] at taken
  cases taken

theorem Inv.lt_of_flight (h : Inv s) (hk : k ∈ s.flight) : k < s.reqs.length := by
  obtain ⟨r, hr⟩ := h.phases.active k hk
  exact hr.lt

theorem Inv.first_used (h : Inv s) (more : s.disk.usedIdx ≠ s.disk.used.idx) :
    ∃ k rest r, s.finished = k :: rest ∧ s.Active k r ∧
      (s.disk.used.ring (Ring.cell num s.disk.usedIdx.toNat)).toNat = r.chain.head ∧
      s.disk.info r.chain.head = ⟨some r.command.buf, 0⟩ := by
  have used := h.rings.used
  cases first : s.finished with
  | nil =>
    rw [first] at used
    exact absurd ((used.eq_iff (Nat.pos_of_neZero _)).mpr rfl) more
  | cons k rest =>
    rw [first] at used
    have mem : k ∈ s.finished := by
      rw [first]
      exact mem_cons_self ..
    obtain ⟨r, mine⟩ := h.phases.active k (mem_append_right _ mem)
    have f := h.chains.formatted k r mine
    have entry : (s.disk.used.ring (Ring.cell num s.disk.usedIdx.toNat)).toNat = r.chain.head := by
      rw [(used.pop (by decide)).1]
      show (UInt32.ofNat (s.head k)).toNat = _
      rw [mine.head]
      exact UInt32.toNat_ofNat_of_lt' ((f.bound _ r.chain.head_mem).trans (by decide))
    have status := h.rings.status k mem
    rw [mine.head] at status
    refine ⟨k, rest, r, rfl, mine, entry, ?_⟩
    rw [← f.buf, ← status]

theorem active_iff (reqs : s'.reqs = s.reqs) (resumed : s'.resumed = s.resumed) :
    s'.Active k r ↔ s.Active k r := by
  unfold State.Active
  rw [reqs, resumed]

theorem head_eq (reqs : s'.reqs = s.reqs) : s'.head = s.head := by
  funext k
  unfold State.head
  rw [reqs]

theorem Chains.frame (h : Chains s) (reqs : s'.reqs = s.reqs) (resumed : s'.resumed = s.resumed)
    (free : s'.disk.free = s.disk.free)
    (same : ∀ i, s.disk.free i = false → s'.disk.desc i = s.disk.desc i ∧
      s'.disk.ops i = s.disk.ops i ∧ (s'.disk.info i).b = (s.disk.info i).b)
    (waits : ∀ p b c k, s'.pc p = .wait b c k ↔ s.pc p = .wait b c k)
    (owner : ∀ p b, (s'.pc p).buf = some b → s'.owner b = some p) : Chains s' := by
  have act : ∀ k r, s'.Active k r ↔ s.Active k r := fun k r => active_iff reqs resumed
  constructor
  · intro k r hk
    have f := h.formatted k r ((act k r).mp hk)
    exact f.congr fun i hi => ⟨by rw [free], same i (f.taken i hi)⟩
  · intro k r hk
    exact (waits ..).mpr (h.waits k r ((act k r).mp hk))
  · intro p b c k hp
    obtain ⟨r, hk, hr⟩ := h.active p b c k ((waits ..).mp hp)
    exact ⟨r, (act k r).mpr hk, hr⟩
  · exact owner
  · intro k k' r r' hk hk'
    exact h.apart k k' r r' ((act k r).mp hk) ((act k' r').mp hk')
  · intro i hi taken
    rw [free] at taken
    obtain ⟨k, r, hk, mem⟩ := h.free i hi taken
    exact ⟨k, r, (act k r).mpr hk, mem⟩
  · rw [resumed]
    exact h.once
  · rw [resumed, reqs]
    exact h.past

/-- A step that leaves the requests and the rings alone. -/
structure Still (s s' : State P B) : Prop where
  panic : s'.panicked = s.panicked
  reqs : s'.reqs = s.reqs
  resumed : s'.resumed = s.resumed
  pending : s'.pending = s.pending
  held : s'.held = s.held
  finished : s'.finished = s.finished
  completed : s'.completed = s.completed
  seen : s'.seen = s.seen
  avail : s'.disk.avail = s.disk.avail
  used : s'.disk.used = s.disk.used
  usedIdx : s'.disk.usedIdx = s.disk.usedIdx
  info : s'.disk.info = s.disk.info
  ops : s'.disk.ops = s.disk.ops
  free : s'.disk.free = s.disk.free
  desc : ∀ i, s.disk.free i = false → s'.disk.desc i = s.disk.desc i
  waits : ∀ p b c k, s'.pc p = .wait b c k ↔ s.pc p = .wait b c k
  owner : ∀ p b, (s'.pc p).buf = some b → s'.owner b = some p
  disk : ∀ b, (s'.buf b).disk = (s.buf b).disk
  asleep : ∀ p b c k, s.pc p = .wait b c k → s'.asleep p = true →
    s.asleep p = true ∨ (s.buf b).disk = true

theorem Inv.still (h : Inv s) (st : Still s s') : Inv s' := by
  have act : ∀ k r, s'.Active k r ↔ s.Active k r := fun k r => active_iff st.reqs st.resumed
  have flight : s'.flight = s.flight := by
    unfold State.flight
    rw [st.pending, st.held, st.finished]
  refine ⟨st.panic.trans h.panic, ?_, ?_, ?_, ?_⟩
  · refine h.chains.frame st.reqs st.resumed st.free (fun i hi => ?_) st.waits st.owner
    rw [st.desc i hi, st.ops, st.info]
    exact ⟨rfl, rfl, rfl⟩
  · constructor
    · rw [flight]
      exact h.phases.nodup
    · intro k hk
      rw [flight] at hk
      obtain ⟨r, hr⟩ := h.phases.active k hk
      exact ⟨r, (act k r).mpr hr⟩
    · intro k r hk
      rw [flight, st.disk]
      exact h.phases.disk k r ((act k r).mp hk)
    · intro k r hk sleeps
      have old := (act k r).mp hk
      rw [flight]
      rcases st.asleep _ _ _ _ (h.chains.waits k r old) sleeps with sleeps | busy
      · exact h.phases.asleep k r old sleeps
      · exact (h.phases.disk k r old).mp busy
  · constructor
    · rw [st.avail, st.seen, st.pending, head_eq st.reqs]
      exact h.rings.avail
    · rw [st.held, head_eq st.reqs]
      exact h.rings.held
    · rw [st.used, st.usedIdx, st.finished, head_eq st.reqs]
      exact h.rings.used
    · rw [st.finished, st.info, head_eq st.reqs]
      exact h.rings.status
  · constructor
    · rw [st.completed, st.reqs, st.pending, st.held]
      exact h.history.completed
    · rw [st.completed]
      exact h.history.once
    · rw [st.completed, st.reqs]
      exact h.history.command

end

section Steps

variable [DecidableEq P] {s s' : State P B} {p : P} {b : B}

theorem Chains.owner_update (h : Chains s) (own : ∀ b, v.buf = some b → s.owner b = some p) :
    ∀ q b, (update s.pc p v q).buf = some b → s.owner b = some q :=
  (forall_update_iff s.pc fun q v => ∀ b, v.buf = some b → s.owner b = some q).mpr
    ⟨own, fun q _ => h.owner q⟩

theorem Inv.failed (h : Inv s) (at_ : s.pc p = .rw b write)
    (failed : Failed s t) : Inv (t.sleep p) := by
  have pc : t.pc = s.pc := by rw [failed.state]
  refine h.still ⟨?_, ?_, ?_, ?_, ?_, ?_, ?_, ?_, ?_, ?_, ?_, ?_, ?_, ?_, failed.desc, ?_, ?_, ?_, ?_⟩
  any_goals
    rw [failed.state]
    rfl
  · intro q b' c k
    show t.pc q = _ ↔ _
    rw [pc]
  · intro q b' hq
    replace hq : (t.pc q).buf = some b' := hq
    rw [pc] at hq
    have := h.chains.owner q b' hq
    rwa [failed.state]
  · intro b'
    show (t.buf b').disk = _
    rw [failed.state]
  · intro q b' c k hq sleeps
    have ne : q ≠ p := by
      rintro rfl
      rw [at_] at hq
      cases hq
    replace sleeps : update t.asleep p true q = true := sleeps
    rw [update_of_ne ne] at sleeps
    exact .inl (failed.asleep q sleeps)

/-- The caller of a request that the driver has found in the used ring goes on. -/
theorem Inv.resume (h : Inv s) (mine : s.Active k r)
    (done : (s.buf r.command.buf).disk = false) (freed : Freed
      { s with
        disk := s.disk.setInfo r.chain.head { s.disk.info r.chain.head with b := none } }
      r.chain.toList t) : Inv (t.resume r.proc k) := by
  have landed : k ∉ s.flight := fun hk => by
    rw [(h.phases.disk k r mine).mpr hk] at done
    cases done
  obtain ⟨state, desc, asleep⟩ := freed
  -- the other requests are those that were active
  have act : ∀ k' r', (t.resume r.proc k).Active k' r' ↔ s.Active k' r' ∧ k' ≠ k := by
    intro k' r'
    have reqs : t.reqs = s.reqs := by rw [state]
    have resumed : t.resumed = s.resumed := by rw [state]
    show t.reqs[k']? = some r' ∧ k' ∉ t.resumed ++ [k] ↔ _
    rw [reqs, resumed, mem_append, mem_singleton, not_or, ← and_assoc]
    rfl
  generalize t.disk.desc = newDesc at state desc
  generalize t.asleep = newAsleep at state asleep
  subst state
  have other : ∀ k' r', s.Active k' r' → k' ≠ k → r'.proc ≠ r.proc := fun k' r' hk ne same =>
    ne (h.chains.number hk mine same)
  refine ⟨h.panic, ?_, ?_, ?_, ?_⟩
  · constructor
    · intro k' r' hk
      obtain ⟨old, ne⟩ := (act k' r').mp hk
      refine (h.chains.formatted k' r' old).congr fun i hi => ?_
      have off : i ∉ r.chain.toList := h.chains.apart k' k r' r old mine ne hi
      refine ⟨?_, desc i off, rfl, ?_⟩
      · show (r.chain.toList.contains i || s.disk.free i) = _
        simp [off]
      · show (update s.disk.info r.chain.head _ i).b = _
        rw [update_of_ne]
        rintro rfl
        exact off r.chain.head_mem
    · intro k' r' hk
      obtain ⟨old, ne⟩ := (act k' r').mp hk
      exact (update_of_ne (other k' r' old ne) ..).trans (h.chains.waits k' r' old)
    · intro q b' c' k' hq
      by_cases hp : q = r.proc
      · rw [hp] at hq
        cases (update_self ..).symm.trans hq
      · obtain ⟨r', old, hr⟩ := h.chains.active q b' c' k'
          ((update_of_ne hp ..).symm.trans hq)
        refine ⟨r', (act k' r').mpr ⟨old, ?_⟩, hr⟩
        rintro rfl
        rw [old.unique mine] at hr
        exact hp hr.symm
    · exact h.chains.owner_update nofun
    · intro k1 k2 r1 r2 hk1 hk2
      exact h.chains.apart k1 k2 r1 r2 ((act k1 r1).mp hk1).1 ((act k2 r2).mp hk2).1
    · intro i hi taken
      replace taken : (r.chain.toList.contains i || s.disk.free i) = false := taken
      rw [Bool.or_eq_false_iff] at taken
      obtain ⟨k', r', old, mem⟩ := h.chains.free i hi taken.2
      refine ⟨k', r', (act k' r').mpr ⟨old, ?_⟩, mem⟩
      rintro rfl
      rw [old.unique mine] at mem
      simp [mem] at taken
    · exact h.chains.once.append (nodup_singleton k) fun k' hk' eq => by
        rw [mem_singleton.mp eq] at hk'
        exact mine.2 hk'
    · intro k' hk'
      rcases mem_append.mp hk' with hk' | hk'
      · exact h.chains.past k' hk'
      · rw [mem_singleton.mp hk']
        exact mine.lt
  · constructor
    · exact h.phases.nodup
    · intro k' hk'
      obtain ⟨r', hr'⟩ := h.phases.active k' hk'
      refine ⟨r', (act k' r').mpr ⟨hr', ?_⟩⟩
      rintro rfl
      exact landed hk'
    · intro k' r' hk'
      exact h.phases.disk k' r' ((act k' r').mp hk').1
    · intro k' r' hk' sleeps
      exact h.phases.asleep k' r' ((act k' r').mp hk').1 (asleep _ sleeps)
  · constructor
    · exact h.rings.avail
    · exact h.rings.held
    · exact h.rings.used
    · refine fun k' hk' => Eq.trans ?_ (h.rings.status k' hk')
      exact (forall_update_iff s.disk.info fun i v => v.status = (s.disk.info i).status).mpr
        ⟨by rfl, fun _ _ => rfl⟩ _
  · exact ⟨h.history.completed, h.history.once, h.history.command⟩

variable [DecidableEq B] {write : Bool} {c : Chain}

section Request

variable {t : State P B}

theorem active_request (h : Inv s) (took : Took s c.toList t) (k : Nat) (r : Request P B) :
    (t.request p b write c).Active k r ↔
    s.Active k r ∨ k = s.reqs.length ∧ r = ⟨p, t.command b write, c⟩ := by
  have reqs : (t.request p b write c).reqs = s.reqs ++ [⟨p, t.command b write, c⟩] := by
    rw [took.state]
    rfl
  have resumed : (t.request p b write c).resumed = s.resumed := by
    rw [took.state]
    rfl
  unfold State.Active
  rw [reqs, resumed]
  rcases lt_trichotomy k s.reqs.length with lt | rfl | gt
  · rw [List.getElem?_append_left lt]
    refine ⟨.inl, ?_⟩
    rintro (old | ⟨rfl, -⟩)
    · exact old
    · exact absurd lt (lt_irrefl _)
  · rw [List.getElem?_append_right (le_refl _), Nat.sub_self, List.getElem?_cons_zero]
    constructor
    · rintro ⟨eq, -⟩
      exact .inr ⟨rfl, (Option.some.inj eq).symm⟩
    · rintro (⟨old, -⟩ | ⟨-, rfl⟩)
      · rw [List.getElem?_eq_none (le_refl _)] at old
        cases old
      · exact ⟨rfl, fun past => lt_irrefl _ (h.chains.past _ past)⟩
  · have none : (s.reqs ++ [⟨p, t.command b write, c⟩])[k]? = none :=
      List.getElem?_eq_none (by rw [length_append, length_singleton]; omega)
    rw [none, List.getElem?_eq_none (by omega)]
    constructor
    · rintro ⟨eq, -⟩
      cases eq
    · rintro (⟨eq, -⟩ | ⟨rfl, -⟩)
      · cases eq
      · exact absurd gt (lt_irrefl _)

theorem Inv.request_chains (h : Inv s) (at_ : s.pc p = .rw b write) (took : Took s c.toList t) :
    Chains (t.request p b write c) := by
  have act : ∀ k r, (t.request p b write c).Active k r ↔ _ := active_request h took
  have other := fun {k r} (hk : s.Active k r) i => Took.other (i := i) h.chains took hk
  have ne := fun {k r} (hk : s.Active k r) => h.chains.not_rw at_ hk
  obtain ⟨state, nodup, bound, free⟩ := took
  subst state
  constructor
  · intro k r hk
    rcases (act k r).mp hk with old | ⟨-, rfl⟩
    · have f := h.chains.formatted k r old
      refine f.congr fun i hi => ⟨?_, ?_⟩
      · show (s.disk.free i && _) = _
        rw [f.taken i hi]
        rfl
      · obtain ⟨desc, ops, info⟩ := submit_other { s.disk with
          free := fun i => s.disk.free i && !c.toList.contains i } (s.command b write)
          (other old i hi)
        exact ⟨desc, ops, congrArg Info.b info⟩
    · refine Formatted.submit bound nodup fun i hi => ?_
      simp [hi]
  · intro k r hk
    rcases (act k r).mp hk with old | ⟨rfl, rfl⟩
    · exact (update_of_ne (ne old) ..).trans (h.chains.waits k r old)
    · exact update_self ..
  · intro q b' c' k hq
    by_cases hp : q = p
    · rw [hp] at hq ⊢
      cases (update_self ..).symm.trans hq
      exact ⟨_, (act _ _).mpr (.inr ⟨rfl, rfl⟩), rfl⟩
    · obtain ⟨r, old, hr⟩ := h.chains.active q b' c' k ((update_of_ne hp ..).symm.trans hq)
      exact ⟨r, (act k r).mpr (.inl old), hr⟩
  · refine h.chains.owner_update ?_
    rintro b' ⟨⟩
    exact h.chains.owner p b (by rw [at_]; rfl)
  · intro k k' r r' hk hk' different
    rcases (act k r).mp hk with old | ⟨rfl, rfl⟩ <;> rcases (act k' r').mp hk' with old' | ⟨rfl, rfl⟩
    · exact h.chains.apart k k' r r' old old' different
    · exact fun i hi hc => other old i hi hc
    · exact fun i hc hi => other old' i hi hc
    · exact absurd rfl different
  · intro i hi taken
    by_cases hc : i ∈ c.toList
    · exact ⟨_, _, (act _ _).mpr (.inr ⟨rfl, rfl⟩), hc⟩
    · replace taken : (s.disk.free i && !c.toList.contains i) = false := taken
      simp only [contains_eq_mem, hc, decide_false, Bool.not_false, Bool.and_true] at taken
      obtain ⟨k, r, old, mem⟩ := h.chains.free i hi taken
      exact ⟨k, r, (act k r).mpr (.inl old), mem⟩
  · exact h.chains.once
  · intro k hk
    have lt := h.chains.past k hk
    show k < (s.reqs ++ [_]).length
    rw [length_append]
    omega

theorem Inv.request_phases (h : Inv s) (at_ : s.pc p = .rw b write) (took : Took s c.toList t) :
    Phases (t.request p b write c) := by
  have act : ∀ k r, (t.request p b write c).Active k r ↔ _ := active_request h took
  have ne := fun {k r} (hk : s.Active k r) => h.chains.not_rw at_ hk
  have fresh : s.reqs.length ∉ s.flight := fun hk => by
    obtain ⟨r, hr⟩ := h.phases.active _ hk
    exact lt_irrefl _ hr.lt
  have flight : (t.request p b write c).flight.Perm (s.reqs.length :: s.flight) := by
    rw [took.state]
    show (s.pending ++ [s.reqs.length] ++ s.held.map Prod.snd ++ s.finished).Perm _
    rw [append_assoc, append_assoc, singleton_append]
    refine perm_middle.trans ?_
    rw [State.flight, append_assoc]
  have mem : ∀ k, k ∈ (t.request p b write c).flight ↔ k = s.reqs.length ∨ k ∈ s.flight :=
    fun k => flight.mem_iff.trans mem_cons
  constructor
  · exact flight.nodup_iff.mpr (nodup_cons.mpr ⟨fresh, h.phases.nodup⟩)
  · intro k hk
    rcases (mem k).mp hk with rfl | hk
    · exact ⟨_, (act _ _).mpr (.inr ⟨rfl, rfl⟩)⟩
    · obtain ⟨r, hr⟩ := h.phases.active k hk
      exact ⟨r, (act k r).mpr (.inl hr)⟩
  · intro k r hk
    rw [mem]
    obtain ⟨state, -, -, -⟩ := took
    subst state
    show (update s.buf b { s.buf b with disk := true } _).disk = true ↔ _
    rcases (act k r).mp hk with old | ⟨rfl, rfl⟩
    · have other : r.command.buf ≠ b := by
        rintro rfl
        have mine := h.chains.owner r.proc _ (by rw [h.chains.waits k r old]; rfl)
        have his := h.chains.owner p _ (by rw [at_]; rfl)
        rw [mine] at his
        exact ne old (Option.some.inj his)
      rw [update_of_ne other, h.phases.disk k r old]
      refine ⟨.inr, ?_⟩
      rintro (rfl | hk)
      · exact absurd old.lt (lt_irrefl _)
      · exact hk
    · show (update s.buf b _ b).disk = true ↔ _
      rw [update_self]
      exact iff_of_true rfl (.inl rfl)
  · intro k r hk sleeps
    rw [mem]
    rcases (act k r).mp hk with old | ⟨rfl, -⟩
    · have same : (t.request p b write c).asleep r.proc = s.asleep r.proc := by
        rw [took.state]
        exact update_of_ne (ne old) ..
      rw [same] at sleeps
      exact .inr (h.phases.asleep k r old sleeps)
    · exact .inl rfl

theorem head_request (took : Took s c.toList t) (lt : k < s.reqs.length) :
    (t.request p b write c).head k = s.head k := by
  rw [took.state]
  show (((s.reqs ++ [_])[k]?).map _).getD 0 = _
  rw [List.getElem?_append_left lt]
  rfl

theorem head_request_self (took : Took s c.toList t) :
    (t.request p b write c).head s.reqs.length = c.head := by
  rw [took.state]
  show (((s.reqs ++ [_])[s.reqs.length]?).map _).getD 0 = _
  rw [List.getElem?_append_right (le_refl _), Nat.sub_self]
  rfl

theorem Inv.request_rings (h : Inv s) (took : Took s c.toList t) :
    Rings (t.request p b write c) := by
  have same : ∀ k ∈ s.flight, (t.request p b write c).head k = s.head k := fun k hk =>
    head_request took (h.lt_of_flight hk)
  have inPending : ∀ k ∈ s.pending, k ∈ s.flight := fun k hk =>
    mem_append_left _ (mem_append_left _ hk)
  have inHeld : ∀ id k, (id, k) ∈ s.held → k ∈ s.flight := fun id k hk =>
    mem_append_left _ (mem_append_right _ (mem_map_of_mem hk))
  have inFinished : ∀ k ∈ s.finished, k ∈ s.flight := fun k hk => mem_append_right _ hk
  have last : (t.request p b write c).head s.reqs.length = c.head := head_request_self took
  have other := fun {k r} (hk : s.Active k r) i => Took.other (i := i) h.chains took hk
  obtain ⟨state, -, -, -⟩ := took
  subst state
  constructor
  · show Ring.Holds _ s.seen (s.disk.avail.idx + 1) ((s.pending ++ [s.reqs.length]).map _)
    rw [map_append, map_singleton, last,
      map_congr_left fun k hk => by rw [same k (inPending k hk)]]
    refine h.rings.avail.push (by decide) ?_
    rw [length_map]
    exact lt_of_le_of_lt h.pending_le (by decide)
  · intro id k hk
    rw [same k (inHeld id k hk)]
    exact h.rings.held id k hk
  · rw [map_congr_left fun k hk => by rw [same k (inFinished k hk)]]
    exact h.rings.used
  · intro k hk
    obtain ⟨r, hr⟩ := h.phases.active k (inFinished k hk)
    have status := h.rings.status k hk
    rw [same k (inFinished k hk)]
    rw [hr.head] at status ⊢
    have kept := (submit_other { s.disk with
      free := fun i => s.disk.free i && !c.toList.contains i } (s.command b write)
      (other hr _ r.chain.head_mem)).2.2
    exact (congrArg Info.status kept).trans status

theorem Inv.request_history (h : Inv s) (took : Took s c.toList t) :
    History (t.request p b write c) := by
  obtain ⟨state, -, -, -⟩ := took
  subst state
  constructor
  · intro k
    show k ∈ s.completed.map Prod.fst ↔ k < (s.reqs ++ [_]).length ∧
      k ∉ s.pending ++ [s.reqs.length] ∧ k ∉ s.held.map Prod.snd
    rw [h.history.completed, length_append, length_singleton, mem_append,
      mem_singleton]
    constructor
    · rintro ⟨lt, pending, held⟩
      refine ⟨by omega, ?_, held⟩
      rintro (hk | rfl)
      · exact pending hk
      · exact lt_irrefl _ lt
    · rintro ⟨lt, pending, held⟩
      rw [not_or] at pending
      exact ⟨by omega, pending.1, held⟩
  · exact h.history.once
  · intro k cmd hk
    obtain ⟨r, hr, eq⟩ := h.history.command k cmd hk
    refine ⟨r, ?_, eq⟩
    obtain ⟨lt, -⟩ := List.getElem?_eq_some_iff.mp hr
    show (s.reqs ++ [_])[k]? = some r
    rw [List.getElem?_append_left lt, hr]

theorem Inv.request (h : Inv s) (at_ : s.pc p = .rw b write) (took : Took s c.toList t) :
    Inv (t.request p b write c) := by
  refine ⟨?_, h.request_chains at_ took, h.request_phases at_ took, h.request_rings took,
    h.request_history took⟩
  rw [took.state]
  exact h.panic

end Request

end Steps

section Interrupt

variable [DecidableEq B] {s : State P B}

/-- A pass of the interrupt handler tells the caller of the first request in the used ring. -/
theorem Inv.handled (h : Inv s) (first : s.finished = k :: rest) (mine : s.Active k r) :
    Inv { (s.setDisk r.command.buf false).wakeup r.command.buf with
      disk := { s.disk with usedIdx := s.disk.usedIdx + 1 }
      finished := rest } := by
  have flight : s.flight.Perm (k :: (s.pending ++ s.held.map Prod.snd ++ rest)) := by
    rw [State.flight, first]
    exact perm_middle
  have nodup := nodup_cons.mp (flight.nodup_iff.mp h.phases.nodup)
  have mem : ∀ k', k' ∈ s.flight ↔ k' = k ∨ k' ∈ s.pending ++ s.held.map Prod.snd ++ rest :=
    fun k' => flight.mem_iff.trans mem_cons
  refine ⟨h.panic, ?_, ?_, ?_, ?_⟩
  · exact h.chains.frame rfl rfl rfl (fun _ _ => ⟨rfl, rfl, rfl⟩) (fun _ _ _ _ => Iff.rfl)
      h.chains.owner
  · constructor
    · exact nodup.2
    · intro k' hk'
      exact h.phases.active k' ((mem k').mpr (.inr hk'))
    · intro k' r' hk'
      show (update s.buf r.command.buf _ r'.command.buf).disk = true ↔
        k' ∈ s.pending ++ s.held.map Prod.snd ++ rest
      by_cases same : r'.command.buf = r.command.buf
      · cases h.chains.number_of_buf hk' mine same
        rw [same, update_self]
        exact iff_of_false (by rintro ⟨⟩) nodup.1
      · rw [update_of_ne same, h.phases.disk k' r' hk', mem]
        refine or_iff_right ?_
        rintro rfl
        rw [State.Active.unique hk' mine] at same
        exact same rfl
    · intro k' r' hk' sleeps
      have waits := h.chains.waits k' r' hk'
      unfold State.wakeup at sleeps
      dsimp only [State.setDisk] at sleeps
      rw [waits] at sleeps
      replace sleeps : (if r'.command.buf = r.command.buf then false else s.asleep r'.proc) = true :=
        sleeps
      split at sleeps
      · cases sleeps
      next other =>
        refine ((mem k').mp (h.phases.asleep k' r' hk' sleeps)).resolve_left ?_
        rintro rfl
        rw [State.Active.unique hk' mine] at other
        exact other rfl
  · have used := h.rings.used
    have status := h.rings.status
    rw [first] at used status
    exact ⟨h.rings.avail, h.rings.held, (used.pop (by decide)).2,
      fun k' hk' => status k' (mem_cons_of_mem _ hk')⟩
  · exact ⟨h.history.completed, h.history.once, h.history.command⟩

theorem Inv.intrPass (h : Inv s) : Inv (s.after s.intrPass) := by
  unfold State.intrPass
  split
  · refine h.still ⟨rfl, rfl, rfl, rfl, rfl, rfl, rfl, rfl, rfl, rfl, rfl, rfl, rfl, rfl,
      fun _ _ => rfl, fun _ _ _ _ => Iff.rfl, h.chains.owner, fun _ => rfl, fun _ _ _ _ _ => .inl⟩
  next more =>
    obtain ⟨k, rest, r, first, mine, entry, info⟩ := h.first_used more
    have bound := (h.chains.formatted k r mine).bound _ r.chain.head_mem
    have pass := h.handled first mine
    simp only [entry, info]
    rw [if_neg (Nat.not_le.mpr bound), if_neg (not_not.mpr rfl)]
    show Inv { (s.setDisk r.command.buf false).wakeup r.command.buf with
      disk := { s.disk with usedIdx := s.disk.usedIdx + 1 }
      finished := s.finished.tail }
    rwa [first]

end Interrupt

section Device

variable {s : State P B}

theorem Inv.take (h : Inv s) (more : s.seen ≠ s.disk.avail.idx) : Inv s.take := by
  cases first : s.pending with
  | nil =>
    refine absurd ((h.rings.avail.eq_iff ?_).mpr ?_) more
    · rw [first]
      exact Nat.pos_of_neZero _
    · rw [first]
      rfl
  | cons k rest =>
    have avail := h.rings.avail
    rw [first] at avail
    obtain ⟨entry, avail⟩ := avail.pop (by decide)
    have state : s.take = { s with
        seen := s.seen + 1, held := s.held ++ [(UInt16.ofNat (s.head k), k)], pending := rest } := by
      unfold State.take
      rw [entry, first]
      rfl
    have flight : s.take.flight.Perm s.flight := by
      rw [state, State.flight, State.flight, first]
      refine List.Perm.append_right _ ?_
      rw [map_append, map_singleton, ← append_assoc, cons_append]
      exact perm_append_singleton k _
    rw [state] at flight ⊢
    refine ⟨h.panic, ?_, ?_, ?_, ?_⟩
    · exact h.chains.frame rfl rfl rfl (fun _ _ => ⟨rfl, rfl, rfl⟩) (fun _ _ _ _ => Iff.rfl)
        h.chains.owner
    · exact ⟨flight.nodup_iff.mpr h.phases.nodup,
        fun k' hk' => h.phases.active k' (flight.mem_iff.mp hk'),
        fun k' r' hk' => (h.phases.disk k' r' hk').trans flight.mem_iff.symm,
        fun k' r' hk' sleeps => flight.mem_iff.mpr (h.phases.asleep k' r' hk' sleeps)⟩
    · refine ⟨avail, fun id k' hk' => ?_, h.rings.used, h.rings.status⟩
      rcases mem_append.mp hk' with hk' | hk'
      · exact h.rings.held id k' hk'
      · cases mem_singleton.mp hk'
        rfl
    · refine ⟨fun k' => ?_, h.history.once, h.history.command⟩
      rw [h.history.completed, first, map_append, mem_append, mem_cons, not_or, not_or]
      simp only [map_cons, map_nil, mem_singleton]
      tauto

theorem Inv.complete {id : UInt16} (h : Inv s) (at_ : s.held[i]? = some (id, k)) :
    Inv (s.complete i id k) := by
  have has : (id, k) ∈ s.held := mem_of_getElem? at_
  have inHeld : k ∈ s.held.map Prod.snd := mem_map_of_mem has
  obtain ⟨r, mine⟩ := h.phases.active k
    (mem_append_left _ (mem_append_right _ inHeld))
  have f := h.chains.formatted k r mine
  have head : id.toNat = r.chain.head := by
    rw [h.rings.held id k has, mine.head, f.toNat_ofNat r.chain.head_mem]
  have command : s.disk.command id.toNat = some (r.command, r.chain.head) := by
    rw [head, f.command]
  have held : (s.held.map Prod.snd).Perm (k :: (s.held.eraseIdx i).map Prod.snd) := by
    obtain ⟨lt, eq⟩ := List.getElem?_eq_some_iff.mp at_
    have perm := (getElem_cons_eraseIdx_perm lt).map Prod.snd
    rw [eq] at perm
    exact perm.symm
  have id32 : id.toUInt32 = UInt32.ofNat (s.head k) := by
    rw [mine.head, ← head]
    exact UInt32.toNat_inj.mp (by simp)
  have state : s.complete i id k = { s with
      disk :=
        { s.disk.setInfo r.chain.head { s.disk.info r.chain.head with status := 0 } with
          used :=
            { idx := s.disk.used.idx + 1
              ring := update s.disk.used.ring (Ring.cell num s.disk.used.idx.toNat)
                (UInt32.ofNat (s.head k)) } }
      held := s.held.eraseIdx i
      finished := s.finished ++ [k]
      completed := s.completed ++ [(k, some r.command)] } := by
    unfold State.complete Disk.complete
    rw [command, id32]
    rfl
  have flight : (s.complete i id k).flight.Perm s.flight := by
    rw [state, State.flight, State.flight]
    rw [← append_assoc]
    refine (perm_append_singleton k _).trans ?_
    rw [← cons_append]
    refine List.Perm.append_right _ (perm_middle.symm.trans (held.symm.append_left _))
  have status : ∀ j, (s.disk.info j).status = 0 →
      (update s.disk.info r.chain.head
        { s.disk.info r.chain.head with status := 0 } j).status = 0 :=
    (forall_update_iff s.disk.info fun j v => (s.disk.info j).status = 0 → v.status = 0).mpr
      ⟨fun _ => rfl, fun _ _ zero => zero⟩
  have fresh : k ∉ s.completed.map Prod.fst := fun done =>
    ((h.history.completed k).mp done).2.2 inHeld
  have nodup : (k :: (s.held.eraseIdx i).map Prod.snd).Nodup := by
    have sub : (s.held.map Prod.snd).Sublist s.flight :=
      (sublist_append_right ..).trans (sublist_append_left ..)
    exact held.nodup_iff.mp (h.phases.nodup.sublist sub)
  have notPending : k ∉ s.pending := fun hk =>
    (nodup_append.mp (nodup_append.mp h.phases.nodup).1).2.2 k hk k inHeld rfl
  rw [state] at flight ⊢
  refine ⟨h.panic, ?_, ?_, ?_, ?_⟩
  · refine h.chains.frame rfl rfl rfl (fun j _ => ⟨rfl, rfl, ?_⟩) (fun _ _ _ _ => Iff.rfl)
      h.chains.owner
    exact (forall_update_iff s.disk.info fun j v => v.b = (s.disk.info j).b).mpr
      ⟨by rfl, fun _ _ => rfl⟩ j
  · exact ⟨flight.nodup_iff.mpr h.phases.nodup,
      fun k' hk' => h.phases.active k' (flight.mem_iff.mp hk'),
      fun k' r' hk' => (h.phases.disk k' r' hk').trans flight.mem_iff.symm,
      fun k' r' hk' sleeps => flight.mem_iff.mpr (h.phases.asleep k' r' hk' sleeps)⟩
  · refine ⟨h.rings.avail, fun id' k' hk' => h.rings.held id' k' (mem_of_mem_eraseIdx hk'),
      ?_, fun k' hk' => ?_⟩
    · rw [map_append, map_singleton]
      refine h.rings.used.push (by decide) ?_
      rw [length_map]
      exact lt_of_le_of_lt h.finished_le (by decide)
    · rcases mem_append.mp hk' with hk' | hk'
      · exact status _ (h.rings.status k' hk')
      · rw [mem_singleton.mp hk']
        show (update s.disk.info r.chain.head _ (s.head k)).status = 0
        rw [mine.head, update_self]
  · refine ⟨fun k' => ?_, ?_, fun k' cmd hk' => ?_⟩
    · rw [map_append, mem_append, h.history.completed, held.mem_iff, mem_cons, not_or]
      simp only [map_cons, map_nil, mem_singleton]
      constructor
      · rintro (⟨lt, pending, -, erased⟩ | rfl)
        · exact ⟨lt, pending, erased⟩
        · exact ⟨mine.lt, notPending, (nodup_cons.mp nodup).1⟩
      · rintro ⟨lt, pending, erased⟩
        by_cases same : k' = k
        · exact .inr same
        · exact .inl ⟨lt, pending, same, erased⟩
    · rw [map_append]
      refine h.history.once.append (nodup_singleton k) fun k' hk' eq => ?_
      rw [mem_singleton.mp eq] at hk'
      exact fresh hk'
    · rcases mem_append.mp hk' with hk' | hk'
      · exact h.history.command k' cmd hk'
      · cases mem_singleton.mp hk'
        exact ⟨r, mine.1, rfl⟩

theorem Inv.boot : Inv (boot : State P B) := by
  have none : ∀ k r, ¬(Virtio.boot : State P B).Active k r := fun k r act => by
    cases act.1
  refine ⟨rfl, ?_, ?_, ?_, ?_⟩
  · constructor
    · exact fun k r act => absurd act (none k r)
    · exact fun k r act => absurd act (none k r)
    · nofun
    · nofun
    · exact fun k _ r _ act => absurd act (none k r)
    · intro i hi taken
      exact absurd hi (of_decide_eq_false taken)
    · exact nodup_nil
    · nofun
  · exact ⟨nodup_nil, nofun, fun k r act => absurd act (none k r),
      fun k r act => absurd act (none k r)⟩
  · exact ⟨⟨rfl, rfl⟩, nofun, ⟨rfl, rfl⟩, nofun⟩
  · refine ⟨fun k => ?_, nodup_nil, nofun⟩
    exact iff_of_false nofun fun ⟨lt, _⟩ => absurd lt (Nat.not_lt_zero k)

end Device

section Consequences

variable {s : State P B}

theorem Inv.free_iff (h : Inv s) (hi : i < num) :
    s.disk.free i = true ↔ ∀ p b c k, s.pc p = .wait b c k → i ∉ c.toList := by
  constructor
  · intro free p b c k at_ mem
    obtain ⟨r, act, -, -, rfl⟩ := h.chains.request_of_wait at_
    rw [(h.chains.formatted k r act).taken i mem] at free
    cases free
  · intro none
    by_contra taken
    obtain ⟨k, r, act, mem⟩ := h.chains.free i hi (Bool.eq_false_iff.mpr taken)
    exact none _ _ _ _ (h.chains.waits k r act) mem

theorem Inv.used_entry (h : Inv s) (more : s.disk.usedIdx ≠ s.disk.used.idx) :
    ∃ p b c k, s.finished.head? = some k ∧ s.pc p = .wait b c k ∧
      (s.disk.used.ring (Ring.cell num s.disk.usedIdx.toNat)).toNat = c.head ∧
      s.disk.info c.head = ⟨some b, 0⟩ := by
  obtain ⟨k, rest, r, first, mine, entry, info⟩ := h.first_used more
  exact ⟨r.proc, r.command.buf, r.chain, k, by rw [first]; rfl, h.chains.waits k r mine, entry, info⟩

/-- A request that the device has completed is in the used ring, or its caller can go on, or has
gone on. -/
theorem Inv.after_completion (h : Inv s) (done : k ∈ s.completed.map Prod.fst) :
    k ∈ s.finished ∨ k ∈ s.resumed ∨
      ∃ p b c, s.pc p = .wait b c k ∧ (s.buf b).disk = false ∧ s.asleep p = false := by
  obtain ⟨lt, pending, held⟩ := (h.history.completed k).mp done
  by_cases used : k ∈ s.finished
  · exact .inl used
  by_cases past : k ∈ s.resumed
  · exact .inr (.inl past)
  obtain ⟨r, hr⟩ : ∃ r, s.reqs[k]? = some r := ⟨_, List.getElem?_eq_getElem lt⟩
  have mine : s.Active k r := ⟨hr, past⟩
  have landed : k ∉ s.flight := by
    unfold State.flight
    rw [mem_append, mem_append]
    rintro ((hk | hk) | hk)
    · exact pending hk
    · exact held hk
    · exact used hk
  refine .inr (.inr ⟨r.proc, _, _, h.chains.waits k r mine, ?_, ?_⟩)
  · exact Bool.eq_false_iff.mpr fun busy => landed ((h.phases.disk k r mine).mp busy)
  · exact Bool.eq_false_iff.mpr fun sleeps => landed (h.phases.asleep k r mine sleeps)

theorem Inv.completed_of_resumed (h : Inv s) (past : k ∈ s.resumed) :
    k ∈ s.completed.map Prod.fst := by
  have landed : k ∉ s.flight := fun hk => by
    obtain ⟨r, -, active⟩ := h.phases.active k hk
    exact active past
  unfold State.flight at landed
  rw [mem_append, mem_append, not_or, not_or] at landed
  exact (h.history.completed k).mpr ⟨h.chains.past k past, landed.1.1, landed.1.2⟩

end Consequences

section Run

variable [DecidableEq P] [DecidableEq B] {s s' : State P B}

theorem Inv.rwSection (h : Inv s) (p : P) : Inv (s.after (s.rwSection p)) := by
  unfold State.rwSection
  split
  · exact h
  next b write at_ =>
    rcases alloc3Desc_ok s with ⟨c, t, ok, took⟩ | ⟨t, ok, failed⟩
    · rw [ok]
      show Inv (t.request p b write (.ofList c.toList))
      rw [Chain.ofList_toList]
      exact h.request at_ took
    · rw [ok]
      exact h.failed at_ failed
  next b idx k at_ =>
    obtain ⟨r, mine, rfl, rfl, rfl⟩ := h.chains.request_of_wait at_
    split
    next busy =>
      refine h.still ⟨rfl, rfl, rfl, rfl, rfl, rfl, rfl, rfl, rfl, rfl, rfl, rfl, rfl, rfl,
        fun _ _ => rfl, fun _ _ _ _ => Iff.rfl, h.chains.owner, fun _ => rfl,
        fun q b' c' k' hq sleeps => ?_⟩
      by_cases same : q = r.proc
      · rw [same, at_] at hq
        cases hq
        exact .inr busy
      · replace sleeps : update s.asleep r.proc true q = true := sleeps
        rw [update_of_ne same] at sleeps
        exact .inl sleeps
    next done =>
      obtain ⟨t, ok, freed⟩ := (h.chains.formatted k r mine).freeChain
        (s := { s with
          disk := s.disk.setInfo r.chain.head { s.disk.info r.chain.head with b := none } })
        rfl rfl
      simp only [ok]
      exact h.resume mine (Bool.eq_false_iff.mpr done) freed

theorem Inv.step {l : Label P B} (h : Inv s) (hs : step l s = some s') : Inv s' := by
  obtain ⟨-, hs⟩ := Option.ite_none_right_eq_some.mp hs
  cases l with
  | acquiresleep p b blockno =>
    obtain ⟨⟨-, free⟩, rfl⟩ := guarded hs
    refine h.still ⟨rfl, rfl, rfl, rfl, rfl, rfl, rfl, rfl, rfl, rfl, rfl, rfl, rfl, rfl,
      fun _ _ => rfl, fun _ _ _ _ => Iff.rfl, fun q b' hq => ?_, ?_, fun _ _ _ _ _ => .inl⟩
    · have held := h.chains.owner q b' hq
      refine (update_of_ne ?_ ..).trans held
      rintro rfl
      rw [free] at held
      cases held
    · exact (forall_update_iff s.buf fun b v => v.disk = (s.buf b).disk).mpr
        ⟨rfl, fun _ _ => rfl⟩
  | releasesleep p b =>
    obtain ⟨⟨idle, held⟩, rfl⟩ := guarded hs
    refine h.still ⟨rfl, rfl, rfl, rfl, rfl, rfl, rfl, rfl, rfl, rfl, rfl, rfl, rfl, rfl,
      fun _ _ => rfl, fun _ _ _ _ => Iff.rfl, fun q b' hq => ?_, fun _ => rfl, fun _ _ _ _ _ => .inl⟩
    have mine := h.chains.owner q b' hq
    refine (update_of_ne ?_ ..).trans mine
    rintro rfl
    rw [held] at mine
    cases mine
    rw [idle] at hq
    cases hq
  | call p b write =>
    obtain ⟨⟨idle, held⟩, rfl⟩ := guarded hs
    refine h.still ⟨rfl, rfl, rfl, rfl, rfl, rfl, rfl, rfl, rfl, rfl, rfl, rfl, rfl, rfl,
      fun _ _ => rfl, ?_, h.chains.owner_update ?_, fun _ => rfl, fun _ _ _ _ _ => .inl⟩
    · refine (forall_update_iff s.pc fun q v => ∀ b c k, v = .wait b c k ↔ s.pc q = .wait b c k).mpr
        ⟨fun b' c k => ?_, fun _ _ _ _ _ => Iff.rfl⟩
      rw [idle]
      exact iff_of_false nofun nofun
    · rintro b' ⟨⟩
      exact held
  | run p =>
    obtain ⟨-, rfl⟩ := guarded hs
    exact h.rwSection p
  | kill p =>
    cases hs
    refine h.still ⟨rfl, rfl, rfl, rfl, rfl, rfl, rfl, rfl, rfl, rfl, rfl, rfl, rfl, rfl,
      fun _ _ => rfl, fun _ _ _ _ => Iff.rfl, h.chains.owner, fun _ => rfl,
      fun q b c k _ sleeps => .inl ?_⟩
    exact (forall_update_iff s.asleep fun q v => v = true → s.asleep q = true).mpr
      ⟨Bool.noConfusion, fun _ _ => id⟩ q sleeps
  | intr =>
    obtain ⟨-, rfl⟩ := guarded hs
    exact h.still ⟨rfl, rfl, rfl, rfl, rfl, rfl, rfl, rfl, rfl, rfl, rfl, rfl, rfl, rfl,
      fun _ _ => rfl, fun _ _ _ _ => Iff.rfl, h.chains.owner, fun _ => rfl, fun _ _ _ _ _ => .inl⟩
  | intrNext =>
    obtain ⟨-, rfl⟩ := guarded hs
    exact h.intrPass
  | take =>
    obtain ⟨more, rfl⟩ := guarded hs
    exact h.take more
  | complete i =>
    obtain ⟨⟨id, k⟩, at_, rfl⟩ := Option.map_eq_some_iff.mp hs
    exact h.complete at_

theorem Inv.reach (run : Reach s) : Inv s :=
  run.invariant (I := Inv) Inv.boot fun _ _ _ h _ hs => h.step hs

/-- In every reachable state: no panic has happened; a descriptor is free if it is in no chain; a
chain has three, different from those of others; the next entry of the used ring is of a request
whose caller waits with the buffer in `info`, and its status is good; the device completes a request
once, as it asks; a caller goes on once, after that; and the caller of a request found in the used
ring is awake and can go on. -/
theorem virtio_requests (run : Reach s) :
    s.panicked = none ∧
    (∀ i < num, s.disk.free i = true ↔ ∀ p b c k, s.pc p = .wait b c k → i ∉ c.toList) ∧
    (∀ p b c k, s.pc p = .wait b c k → c.toList.Nodup ∧ ∀ i ∈ c.toList, i < num) ∧
    (∀ p q b b' c c' k k', s.pc p = .wait b c k → s.pc q = .wait b' c' k' → p ≠ q →
      c.toList.Disjoint c'.toList) ∧
    (s.disk.usedIdx ≠ s.disk.used.idx → ∃ p b c k, s.finished.head? = some k ∧
      s.pc p = .wait b c k ∧
      (s.disk.used.ring (Ring.cell num s.disk.usedIdx.toNat)).toNat = c.head ∧
      s.disk.info c.head = ⟨some b, 0⟩) ∧
    ((s.completed.map Prod.fst).Nodup ∧ ∀ k cmd, (k, cmd) ∈ s.completed →
      ∃ r, s.reqs[k]? = some r ∧ cmd = some r.command) ∧
    (s.resumed.Nodup ∧ s.resumed ⊆ s.completed.map Prod.fst) ∧
    ∀ k ∈ s.completed.map Prod.fst, k ∈ s.finished ∨ k ∈ s.resumed ∨
      ∃ p b c, s.pc p = .wait b c k ∧ (s.buf b).disk = false ∧ s.asleep p = false := by
  have h := Inv.reach run
  refine ⟨h.panic, fun i hi => h.free_iff hi, fun p b c k at_ => ?_,
    fun p q b b' c c' k k' hp hq ne => ?_, h.used_entry, ⟨h.history.once, h.history.command⟩,
    ⟨h.chains.once, fun k => h.completed_of_resumed⟩, fun k => h.after_completion⟩
  · obtain ⟨r, act, -, -, rfl⟩ := h.chains.request_of_wait at_
    have f := h.chains.formatted k r act
    exact ⟨f.nodup, f.bound⟩
  · obtain ⟨r, act, rfl, -, rfl⟩ := h.chains.request_of_wait hp
    obtain ⟨r', act', rfl, -, rfl⟩ := h.chains.request_of_wait hq
    refine h.chains.apart k k' r r' act act' ?_
    rintro rfl
    rw [act.unique act'] at ne
    exact ne rfl

end Run

/-- Two processes read blocks, and the device completes the second request first. -/
def readsTwo : List (Label (Fin 2) (Fin 2)) :=
  [.acquiresleep 0 0 5, .call 0 0 false, .run 0, .acquiresleep 1 1 7, .call 1 1 false, .run 1,
    .take, .take, .complete 1]

theorem virtio_requests_second : ∃ s : State (Fin 2) (Fin 2), Reach s ∧
    s.completed = [(1, some ⟨false, 14, 1, 1024⟩)] ∧
    (1 ∈ s.finished ∨ 1 ∈ s.resumed ∨
      ∃ p b c, s.pc p = .wait b c 1 ∧ (s.buf b).disk = false ∧ s.asleep p = false) := by
  obtain ⟨s, run, done⟩ := exists_reach step (fun _ _ => True) boot readsTwo
    (P := fun s : State (Fin 2) (Fin 2) => s.completed = [(1, some ⟨false, 14, 1, 1024⟩)])
    (by decide +kernel)
  obtain ⟨-, -, -, -, -, -, -, told⟩ := virtio_requests run
  exact ⟨s, run, done, told 1 (by rw [done]; exact mem_cons_self ..)⟩

end Xv6.Virtio
