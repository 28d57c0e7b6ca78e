import Xv6.Log.Protocol

/-! The sections `begin_op..end_op`, the commits that make them durable, and the space reserved for
them. -/

namespace Xv6.Log

open Transition Function List

variable {g : Geometry} {s s' : State} {l : Label} {d : Disk} {sec : Section} {durable : List Tx}
  {lh : List UInt32} {b : UInt32} {p : Pid}

/-- A commit that has started `write_log` and has not finished `install_trans`. -/
def CommitPc.Writing : CommitPc → Prop
  | .writeLog _ | .writeHead | .install _ => True
  | _ => False

/-- A commit whose header is on the disk and still describes the transaction in memory. -/
def CommitPc.Late : CommitPc → Prop
  | .install _ | .clear => True
  | _ => False

/-- Every block of `sec` waits in the header, or all of them are in the first transaction to reach
the disk after the section began. -/
def Section.Covered (sec : Section) (durable : List Tx) (lh : List UInt32) : Prop :=
  (sec.first = durable.length ∧ ∀ b ∈ sec.wrote, b ∈ lh) ∨
    ∃ tx, durable[sec.first]? = some tx ∧ ∀ b ∈ sec.wrote, b.toNat ∈ tx.map Prod.fst

theorem Section.Covered.settled (h : sec.Covered durable lh) (lt : sec.first < durable.length)
    (lh' : List UInt32) : sec.Covered durable lh' := by
  rcases h with ⟨e, _⟩ | h
  · omega
  · exact .inr h

theorem Section.Covered.grow (h : sec.Covered durable lh)
    (sub : ∀ b ∈ lh, b ∈ lh') : sec.Covered durable lh' := by
  rcases h with ⟨e, hb⟩ | h
  · exact .inl ⟨e, fun b hw => sub b (hb b hw)⟩
  · exact .inr h

theorem Section.Covered.commit (h : sec.Covered durable lh)
    (all : ∀ b ∈ lh, b.toNat ∈ tx.map Prod.fst) :
    sec.Covered (durable ++ [tx]) lh ∧ sec.first < (durable ++ [tx]).length := by
  rcases h with ⟨e, hb⟩ | ⟨t, ht, hb⟩
  · exact ⟨.inr ⟨tx, by simp [e], fun b hw => all b (hb b hw)⟩, by simp [e]⟩
  · have lt := (List.getElem?_eq_some_iff.mp ht).1
    exact ⟨.inr ⟨t, by rw [List.getElem?_append_left lt, ht], hb⟩, by simp; omega⟩

theorem mem_tx (s : State) (h : b ∈ s.lh) : b.toNat ∈ s.tx.map Prod.fst := by
  simp only [State.tx, map_map, mem_map, Function.comp]
  exact ⟨b, h, rfl⟩

/-- The sections in progress began after the last commit and their blocks are in the header; each
finished one is covered, and past the commit point none waits. -/
structure Sections (s : State) : Prop where
  current : ∀ p, s.proc p = .inOp →
    s.opened p = s.durable.length ∧ (s.wrote p).Nodup ∧ ∀ b ∈ s.wrote p, b ∈ s.lh
  covered : ∀ sec ∈ s.closed, sec.Covered s.durable s.lh
  settled : (s.mode ≠ .up ∨ ∃ p c, s.proc p = .commit c ∧ c.Late) →
    ∀ sec ∈ s.closed, sec.first < s.durable.length

theorem Sections.boot (d : Disk) : Sections (State.boot d [] []) :=
  ⟨fun p h => (by cases h), fun sec h => (by simp [State.boot] at h),
    fun _ sec h => (by simp [State.boot] at h)⟩

theorem Sections.move (h : Sections s) (hop : pc ≠ .inOp)
    (late : ∀ c, pc = .commit c → c.Late → ∃ c', s.proc p = .commit c' ∧ c'.Late) :
    Sections (s.setProc p pc) := by
  refine ⟨fun q hq => ?_, h.covered, fun hs => h.settled ?_⟩
  · by_cases e : q = p
    · subst e; simp at hq; exact absurd hq hop
    · exact h.current q (by simpa [e] using hq)
  · refine hs.imp id ?_
    rintro ⟨q, c, hq, hl⟩
    by_cases e : q = p
    · subst e
      obtain ⟨c', hc', hl'⟩ := late c (by simpa using hq) hl
      exact ⟨q, c', hc', hl'⟩
    · exact ⟨q, c, by simpa [e] using hq, hl⟩

theorem Sections.same (h : Sections s) (proc : s'.proc = s.proc)
    (durable : s'.durable = s.durable) (opened : s'.opened = s.opened)
    (wrote : s'.wrote = s.wrote) (closed : s'.closed = s.closed) (lh : s'.lh = s.lh)
    (mode : s'.mode ≠ .up → s.mode ≠ .up) : Sections s' := by
  refine ⟨fun p hp => ?_, fun sec hs => ?_, fun hm sec hs => ?_⟩
  · rw [opened, durable, wrote, lh]; exact h.current p (proc ▸ hp)
  · rw [durable, lh]; exact h.covered sec (closed ▸ hs)
  · rw [durable]; exact h.settled (hm.imp mode (by rw [proc]; exact id)) sec (closed ▸ hs)

theorem Sections.crash (h : Sections s) : Sections s.crash := by
  refine ⟨fun p hp => (by cases hp), fun sec hs => ?_, fun _ sec hs => ?_⟩
  · obtain ⟨hmem, hlt⟩ := mem_filter.mp hs
    exact (h.covered sec hmem).settled (by simpa using hlt) _
  · show sec.first < s.durable.length
    simpa using (mem_filter.mp hs).2

theorem Sections.newHead (h : Sections s) (lt : ∀ sec ∈ s.closed, sec.first < s.durable.length)
    (none_ : ∀ p, s'.proc p ≠ .inOp) (durable : s'.durable = s.durable)
    (closed : s'.closed = s.closed) : Sections s' := by
  refine ⟨fun p hp => absurd hp (none_ p), fun sec hs => ?_, fun _ sec hs => ?_⟩
  · rw [durable]; rw [closed] at hs; exact (h.covered sec hs).settled (lt sec hs) _
  · rw [durable]; exact lt sec (closed ▸ hs)

theorem Sections.enter (h : Sections s) (at_ : s.proc p = .idle ∨ s.proc p = .asleep) :
    Sections { s.setProc p .inOp with
      outstanding := s.outstanding + 1
      opened := update s.opened p s.durable.length
      wrote := update s.wrote p [] } := by
  refine ⟨fun q hq => ?_, h.covered, fun hs => h.settled (hs.imp id ?_)⟩
  · by_cases e : q = p
    · subst e; simp
    · have := h.current q (by simpa [e] using hq)
      simpa [e] using this
  · rintro ⟨q, c, hq, hl⟩
    by_cases e : q = p
    · subst e; simp at hq
    · exact ⟨q, c, by simpa [e] using hq, hl⟩

theorem mem_append_new (h : c ∈ lh) : c ∈ (if b ∈ lh then lh else lh ++ [b]) := by
  split
  · exact h
  · exact mem_append_left _ h

theorem self_mem_append_new (b : UInt32) (lh : List UInt32) :
    b ∈ (if b ∈ lh then lh else lh ++ [b]) := by
  split
  · assumption
  · simp

theorem Sections.log (h : Sections s) : Sections { s with
      bread := update s.bread b.toNat data
      lh := if b ∈ s.lh then s.lh else s.lh ++ [b]
      wrote := update s.wrote p
        (if b ∈ s.wrote p then s.wrote p else b :: s.wrote p) } := by
  refine ⟨fun q hq => ?_, fun sec hs => (h.covered sec hs).grow fun c => mem_append_new,
    h.settled⟩
  obtain ⟨ho, hn, hb⟩ := h.current q hq
  refine ⟨ho, ?_, fun c hc => ?_⟩
  · by_cases e : q = p
    · subst e
      simp only [update_self]
      split
      · exact hn
      · exact hn.cons ‹_›
    · simpa [e] using hn
  · by_cases e : q = p
    · subst e
      simp only [update_self] at hc
      split at hc
      · exact mem_append_new (hb c hc)
      · rcases mem_cons.mp hc with rfl | hc
        · exact self_mem_append_new _ _
        · exact mem_append_new (hb c hc)
    · simp only [update_of_ne e] at hc
      exact mem_append_new (hb c hc)

theorem Sections.finish (h : Sections s) (pc : Pc) (up : s.mode = .up) (at_ : s.proc p = .inOp)
    (none_ : ∀ q c, s.proc q = .commit c → ¬c.Late) (hop : pc ≠ .inOp)
    (early : ∀ c, pc = .commit c → ¬c.Late) (proc : s'.proc = (s.setProc p pc).proc)
    (mode : s'.mode = s.mode) (durable : s'.durable = s.durable) (opened : s'.opened = s.opened)
    (wrote : s'.wrote = s.wrote) (lh : s'.lh = s.lh)
    (closed : s'.closed = s.closed ++ [⟨s.opened p, s.wrote p⟩]) : Sections s' := by
  have late : ∀ q c, s'.proc q = .commit c → ¬c.Late := by
    intro q c hq
    rw [proc] at hq
    by_cases e : q = p
    · subst e; exact early c (by simpa using hq)
    · exact none_ q c (by simpa [e] using hq)
  refine ⟨fun q hq => ?_, fun sec hs => ?_, fun hm => ?_⟩
  · rw [opened, durable, wrote, lh]
    rw [proc] at hq
    by_cases e : q = p
    · subst e; simp at hq; exact absurd hq hop
    · exact h.current q (by simpa [e] using hq)
  · rw [durable, lh]
    rw [closed, mem_append, mem_singleton] at hs
    rcases hs with hs | rfl
    · exact h.covered sec hs
    · obtain ⟨ho, _, hb⟩ := h.current p at_
      exact .inl ⟨ho, hb⟩
  · rcases hm with hm | ⟨q, c, hq, hl⟩
    · exact absurd (mode.trans up) hm
    · exact absurd hl (late q c hq)

theorem Sections.writeHead (h : Sections s) (pr : Protocol s)
    (at_ : s.proc p = .commit .writeHead) : Sections { s.setProc p (.commit (.install 0)) with
      disk, bread, durable := s.durable ++ [s.tx] } := by
  have none_ : ∀ q, (s.setProc p (.commit (.install 0))).proc q ≠ .inOp := by
    intro q hq
    by_cases e : q = p
    · subst e; simp at hq
    · exact pr.exclusive (pr.committer p _ at_) q (by simpa [e] using hq)
  refine ⟨fun q hq => absurd hq (none_ q), fun sec hs => ?_, fun _ sec hs => ?_⟩
  · exact ((h.covered sec hs).commit fun b => mem_tx s).1
  · have covered : sec.Covered s.durable s.lh := h.covered sec hs
    exact (covered.commit fun b => mem_tx s).2

theorem Sections.effect (h : Sections s) (pr : Protocol s) (eff : Effect g s l s') :
    Sections s' := by
  cases eff with
  | crash => exact h.crash
  | sleep => exact h.move (by simp) (by simp)
  | enter up at_ => exact h.enter at_
  | tooBig | outside => exact h.same rfl rfl rfl rfl rfl rfl id
  | log => exact h.log
  | endPanic up at_ busy => exact absurd at_ (pr.exclusive busy _)
  | endLast up at_ quiet =>
    refine h.finish (.commit .test) up at_ (fun q c hq => ?_) (by simp) (by rintro c ⟨⟩ ⟨⟩)
      rfl rfl rfl rfl rfl rfl rfl
    exact absurd (pr.committer q c hq) (by simp [quiet])
  | endOther up at_ quiet =>
    refine h.finish .idle up at_ (fun q c hq => ?_) (by simp) (by simp)
      rfl rfl rfl rfl rfl rfl rfl
    exact absurd (pr.committer q c hq) (by simp [quiet])
  | testSome | testNone | writeLogEnd => exact h.move (by simp) (by rintro c ⟨⟩ ⟨⟩)
  | writeLog | clearHead =>
    exact (h.move (by simp) (by rintro c ⟨⟩ ⟨⟩)).same rfl rfl rfl rfl rfl rfl id
  | writeHead up at_ => exact h.writeHead pr at_
  | install up at_ =>
    exact (h.move (by simp) fun _ _ _ => ⟨_, at_, trivial⟩).same rfl rfl rfl rfl rfl rfl id
  | installEnd up at_ => exact h.move (by simp) fun _ _ _ => ⟨_, at_, trivial⟩
  | @clear p up at_ =>
    have lt := h.settled (.inr ⟨p, _, at_, trivial⟩)
    refine h.newHead lt (fun q hq => ?_) rfl rfl
    by_cases e : q = p
    · subst e; simp at hq
    · exact pr.exclusive (pr.committer p _ at_) q (by simpa [e] using hq)
  | done => exact (h.move (by simp) (by simp)).same rfl rfl rfl rfl rfl rfl id
  | recRead mode | recInstallEnd mode =>
    have off : s.mode ≠ .up := by simp [mode]
    exact h.newHead (h.settled (.inl off)) (fun q => by simp [pr.down off q]) rfl rfl
  | recInstall mode => exact h.same rfl rfl rfl rfl rfl rfl fun _ => by simp [mode]
  | recClear mode => exact h.same rfl rfl rfl rfl rfl rfl fun hm => absurd rfl hm

/-- Once recovery is complete the header in memory names no block twice. -/
structure Distinct (s : State) : Prop where
  nodup : s.mode = .up → s.lh.Nodup
  cleared : s.mode = .clearHead → s.lh = []

theorem Distinct.effect (h : Distinct s) (eff : Effect g s l s') : Distinct s' := by
  have same (hm : s'.mode = s.mode) (hl : s'.lh = s.lh) : Distinct s' :=
    ⟨fun e => hl ▸ h.nodup (hm ▸ e), fun e => hl.trans (h.cleared (hm ▸ e))⟩
  cases eff with
  | crash | recRead | recInstall => exact ⟨fun e => (by cases e), fun e => (by cases e)⟩
  | log up =>
    refine ⟨fun _ => ?_, fun e => absurd (up.symm.trans e) (by simp)⟩
    have hn := h.nodup up
    split
    · exact hn
    · refine nodup_append.mpr ⟨hn, by simp, fun a ha c hc e => ?_⟩
      rw [mem_singleton] at hc
      exact ‹_ ∉ s.lh› (hc ▸ e ▸ ha)
  | clear up => exact ⟨fun _ => nodup_nil, fun _ => rfl⟩
  | recInstallEnd => exact ⟨fun e => (by cases e), fun _ => rfl⟩
  | recClear mode =>
    have empty := h.cleared mode
    refine ⟨fun _ => ?_, fun e => (by cases e)⟩
    show s.lh.Nodup
    rw [empty]
    exact nodup_nil
  | _ => exact same rfl rfl

structure Inv (s : State) : Prop where
  protocol : Protocol s
  sections : Sections s
  distinct : Distinct s

theorem Inv.boot (d : Disk) : Inv (State.boot d [] []) :=
  ⟨Protocol.boot d [] [], Sections.boot d, fun e => (by cases e), fun e => (by cases e)⟩

theorem Inv.effect (h : Inv s) (eff : Effect g s l s') : Inv s' :=
  ⟨h.protocol.effect eff, h.sections.effect h.protocol eff, h.distinct.effect eff⟩

theorem Inv.step (h : Inv s) (hs : step g l s = some s') : Inv s' := h.effect (step_effect hs).1

theorem Inv.reach (run : Reach g ok d s) : Inv s :=
  run.invariant (Inv.boot d) fun _ _ _ h _ hs => h.step hs

theorem Protocol.commit_outstanding (h : Protocol s)
    (at_ : s.proc p = .commit c) : s.outstanding = 0 := by
  obtain ⟨A, mem, card⟩ := h.count
  have empty : A = ∅ := Finset.eq_empty_of_forall_notMem fun q hq =>
    h.exclusive (h.committer p c at_) q ((mem q).mp hq)
  simp [card, empty]

/-- From the start of `write_log` to the end of `install_trans` no step of any process changes the
header. -/
theorem Protocol.head_fixed (h : Protocol s) (at_ : s.proc p = .commit c) (writing : c.Writing)
    (hl : l ≠ .crash) (eff : Effect g s l s') : s'.lh = s.lh := by
  cases eff with
  | crash => exact absurd rfl hl
  | log up at' room some_ =>
    have := h.commit_outstanding at_
    omega
  | @clear q up at' =>
    cases h.unique p q _ _ at_ at'
    rw [at_] at at'
    cases at'
    exact writing.elim
  | recRead mode | recInstallEnd mode => simp [h.down (by simp [mode]) p] at at_
  | _ => rfl

/-- The callers of `log_write` call it between their `begin_op` and `end_op`. -/
def Disciplined (s : State) : Label → Prop
  | .logWrite p _ _ => s.proc p = .inOp
  | _ => True

theorem Protocol.inOp_outstanding (h : Protocol s) (at_ : s.proc p = .inOp) :
    1 ≤ s.outstanding := by
  obtain ⟨A, mem, card⟩ := h.count
  have : 0 < A.card := Finset.card_pos.mpr ⟨p, (mem p).mpr at_⟩
  omega

theorem disciplined_panic (h : Inv s) (ok : Disciplined s l) (hs : step g l s = some s')
    (old : s.panicked ≠ some .committing ∧ s.panicked ≠ some .outside) :
    s'.panicked ≠ some .committing ∧ s'.panicked ≠ some .outside := by
  obtain ⟨eff, _⟩ := step_effect hs
  cases eff with
  | crash => simp [State.crash, State.boot]
  | tooBig => simp [State.panic]
  | outside up at_ none_ =>
    have := h.protocol.inOp_outstanding ok
    omega
  | endPanic up at_ busy => exact absurd at_ (h.protocol.exclusive busy _)
  | _ => exact old

/-- For every interleaving, restarts included: `commit` runs only with `outstanding = 0`, no
`begin_op` completes during a commit, the header is fixed from the start of `write_log` to the end
of `install_trans` and names no block twice, and the blocks of each section are made durable by one
commit. With `log_write` inside sections only, neither panic that guards the protocol happens. -/
theorem log_protocol (g : Geometry) (d : Disk) :
    (∀ s, Reach g (fun _ _ => True) d s →
      (∀ p c, s.proc p = .commit c → s.outstanding = 0) ∧
      (∀ p s', step g (.beginOp p) s = some s' → s'.proc p = .inOp → s.committing = false) ∧
      (∀ p c l s', s.proc p = .commit c → c.Writing → l ≠ .crash → step g l s = some s' →
        s'.lh = s.lh) ∧
      (s.mode = .up → s.lh.Nodup) ∧
      (∀ p, s.proc p = .inOp → s.opened p = s.durable.length ∧ ∀ b ∈ s.wrote p, b ∈ s.lh) ∧
      ∀ sec ∈ s.closed, sec.Covered s.durable s.lh) ∧
    ∀ s, Reach g Disciplined d s →
      s.panicked ≠ some .committing ∧ s.panicked ≠ some .outside := by
  constructor
  · intro s run
    have h := Inv.reach run
    refine ⟨fun p c at_ => h.protocol.commit_outstanding at_, fun p s' hs hin => ?_,
      fun p c l s' at_ hw hl hs => h.protocol.head_fixed at_ hw hl (step_effect hs).1,
      h.distinct.nodup, fun p at_ => ?_, h.sections.covered⟩
    · obtain ⟨eff, _⟩ := step_effect hs
      cases eff with
      | sleep => simp at hin
      | enter _ _ quiet => exact quiet
    · obtain ⟨ho, _, hb⟩ := h.sections.current p at_
      exact ⟨ho, hb⟩
  · intro s run
    have both : Inv s ∧ s.panicked ≠ some .committing ∧ s.panicked ≠ some .outside := by
      refine run.invariant
        (I := fun s => Inv s ∧ s.panicked ≠ some .committing ∧ s.panicked ≠ some .outside)
        ⟨Inv.boot d, by simp [State.boot], by simp [State.boot]⟩ fun s l s' h ok hs => ?_
      exact ⟨h.1.step hs, disciplined_panic h.1 ok hs h.2⟩
    exact both.2

instance (s : State) : (l : Label) → Decidable (Disciplined s l)
  | .logWrite p _ _ => inferInstanceAs (Decidable (s.proc p = .inOp))
  | .beginOp _ | .endOp _ | .commit _ | .recover | .crash => .isTrue trivial

/-- Two operations overlap, the second to end is in `commit`, and a third one waits for it. -/
theorem log_protocol_two : ∃ s, Reach (mkfsGeometry 2) Disciplined (fun _ _ => 0) s ∧
    s.proc 1 = .commit (.install 0) ∧ s.proc 2 = .asleep ∧ s.outstanding = 0 ∧ s.lh.Nodup ∧
    s.closed = [⟨0, [100]⟩, ⟨0, [101, 100]⟩] ∧ (∀ sec ∈ s.closed, sec.Covered s.durable s.lh) ∧
    s.panicked ≠ some .committing := by
  obtain ⟨s, reach, committing, asleep, closed, up⟩ := exists_reach (step (mkfsGeometry 2))
    Disciplined (State.boot (fun _ _ => 0) [] []) ([.recover, .recover, .recover, .beginOp 0,
      .beginOp 1, .logWrite 0 100 fun _ => 1, .logWrite 1 100 fun _ => 2, .logWrite 1 101 fun _ => 3,
      .endOp 0, .endOp 1, .beginOp 2] ++ List.replicate 5 (.commit 1))
    (P := fun s => s.proc 1 = .commit (.install 0) ∧ s.proc 2 = .asleep ∧
      s.closed = [⟨0, [100]⟩, ⟨0, [101, 100]⟩] ∧ s.mode = .up) (by decide +kernel)
  obtain ⟨every, disciplined⟩ := log_protocol (mkfsGeometry 2) fun _ _ => 0
  obtain ⟨outstanding, -, -, distinct, -, covered⟩ := every s (reach.mono fun _ _ _ => trivial)
  exact ⟨s, reach, committing, asleep, outstanding 1 _ committing, distinct up, closed, covered,
    (disciplined s reach).1⟩

end Xv6.Log
