import Xv6.Sched.Switch

/-! The hand-over of a process between a processor and its scheduler. A process's lock stays with
the processor across `swtch`, so a process that a scheduler can pick is on no other processor, and
its context is saved. -/

namespace Xv6.Switch

open Transition Kernel List Table
open Function (update update_of_ne update_self)

variable {n : Nat} {q : Fin n}

/-- The process that the processor has in `c->proc` when it executes this. -/
def Exec.process : Exec n → Option (Fin n)
  | sched (.switch i) | sched (.back i) | toProc i | proc i | toSched i => some i
  | sched _ => none

def Loop.holds : Loop n → Option (Fin n)
  | locked i | switch i | back i | wakeupLocked _ _ i => some i
  | _ => none

def Parked (stack : List (Frame n)) : Prop := ∃ f ∈ stack.head?, f.parked

def made (stack : List (Frame n)) : List (Fin n) := stack.filterMap Frame.makes

namespace State

variable (s : State n)

def state (p : Fin n) : ProcState := (s.proc p).state

def holds (c : Nat) : Option (Fin n) :=
  match (s.cpu c).exec with
  | .sched loop => loop.holds
  | .toProc p | .toSched p => some p
  | .proc p => (s.stack p).head?.bind (Frame.holds p)

/-- The processor `c` runs on the kernel stack of the process `p`. -/
def OnStack (c : Nat) (p : Fin n) : Prop :=
  (s.cpu c).exec = .proc p ∨ (s.cpu c).exec = .toSched p

end State

/-- What the processor `c` executes fits its `c->proc`, the locks, and the process. -/
structure CpuOk (s : State n) (c : Nat) : Prop where
  proc : (s.cpu c).proc = (s.cpu c).exec.process
  lock : ∀ i, s.holds c = some i → s.plock i = some c
  goes : ∀ p, (s.cpu c).exec = .sched (.switch p) ∨ (s.cpu c).exec = .toProc p →
    s.state p = .running ∧ s.saved p = true
  comes : ∀ p, (s.cpu c).exec = .sched (.back p) ∨ (s.cpu c).exec = .toSched p →
    s.state p ≠ .running ∧ s.saved p = true
  runs : ∀ p, (s.cpu c).exec = .proc p →
    (s.state p = .running ↔ ¬Parked (s.stack p)) ∧ s.saved p = false

/-- The processors are as `CpuOk` says; a process is on one at most, a running one on some, and one
on none has its context saved. Only the innermost call of a process holds a process's lock, and
those that `fork` is making are `USED` and known to one call only. -/
structure Inv (s : State n) : Prop where
  cpu : ∀ c, CpuOk s c
  one : ∀ c c' p, (s.cpu c).proc = some p → (s.cpu c').proc = some p → c = c'
  running : ∀ p, s.state p = .running → ∃ c, (s.cpu c).proc = some p
  saved : ∀ p, (∀ c, (s.cpu c).proc ≠ some p) → s.state p ≠ .unused → s.saved p = true
  parked : ∀ p, s.saved p = true → Parked (s.stack p)
  below : ∀ p, ∀ f ∈ (s.stack p).tail, f.holds p = none
  used : ∀ p np, np ∈ made (s.stack p) → s.state np = .used
  nodup : ∀ p, (made (s.stack p)).Nodup
  apart : ∀ p q np, np ∈ made (s.stack p) → np ∈ made (s.stack q) → p = q

section

variable {s s' t : State n} {c : Nat} {p i : Fin n} {a b : ProcState} {v : Proc n} {g : Frame n}

/-- What `CpuOk` says of the process, for a processor that executes this. -/
def Exec.Fits (s : State n) : Exec n → Prop
  | sched (.switch p) | toProc p => s.state p = .running ∧ s.saved p = true
  | sched (.back p) | toSched p => s.state p ≠ .running ∧ s.saved p = true
  | proc p => (s.state p = .running ↔ ¬Parked (s.stack p)) ∧ s.saved p = false
  | sched _ => True

theorem CpuOk.of_exec (e : Exec n) (exec : (s.cpu c).exec = e) (proc : (s.cpu c).proc = e.process)
    (lock : ∀ i, s.holds c = some i → s.plock i = some c) (fits : e.Fits s) : CpuOk s c := by
  subst exec
  refine ⟨proc, lock, fun p hp => ?_, fun p hp => ?_, fun p hp => ?_⟩
  · rcases hp with hp | hp <;> rw [hp] at fits <;> exact fits
  · rcases hp with hp | hp <;> rw [hp] at fits <;> exact fits
  · rwa [hp] at fits

/-- A processor whose process is not running holds that process's lock. -/
theorem Inv.locked (h : Inv s) (on : (s.cpu c).proc = some p) (still : s.state p ≠ .running) :
    s.plock p = some c := by
  have ok := h.cpu c
  rw [ok.proc] at on
  refine ok.lock p ?_
  unfold State.holds
  cases exec : (s.cpu c).exec <;> rw [exec] at on
  case sched loop => cases loop <;> cases on <;> rfl
  case toProc i =>
    cases on
    rfl
  case toSched i =>
    cases on
    rfl
  case proc i =>
    cases on
    have parked : Parked (s.stack p) := by
      by_contra active
      exact still (((ok.runs p exec).1).mpr active)
    obtain ⟨f, top, hf⟩ := parked
    show (s.stack p).head?.bind (Frame.holds p) = some p
    rw [Option.mem_def.mp top]
    cases f <;> first | rfl | cases hf

/-- The processor that holds the lock of a process that is not running is the only one that can have
it as its process. -/
theorem Inv.absent (h : Inv s) (still : s.state i ≠ .running) (held : s.plock i = some c)
    (other : (s.cpu c).proc ≠ some i) (c' : Nat) : (s.cpu c').proc ≠ some i := by
  intro on
  have locked := h.locked on still
  rw [held] at locked
  cases locked
  exact other on

/-- Processors other than `c` are as they were, and so is what they execute. -/
structure Elsewhere (s s' : State n) (c : Nat) : Prop where
  cpu : ∀ c', c' ≠ c → s'.cpu c' = s.cpu c'
  plock : ∀ i c', c' ≠ c → s.plock i = some c' → s'.plock i = some c'
  stack : ∀ q c', c' ≠ c → (s.cpu c').proc = some q → s'.stack q = s.stack q
  saved : ∀ q c', c' ≠ c → (s.cpu c').proc = some q → s'.saved q = s.saved q
  state : ∀ q c', c' ≠ c → (s.cpu c').proc = some q →
    (s'.state q = .running ↔ s.state q = .running)

theorem Inv.elsewhere (h : Inv s) (same : Elsewhere s s' c) (hc : c' ≠ c) : CpuOk s' c' := by
  have ok := h.cpu c'
  have cpu := same.cpu c' hc
  have mine : ∀ q, (s.cpu c').exec.process = some q → (s.cpu c').proc = some q := fun q hq => by
    rw [ok.proc, hq]
  refine ⟨by rw [cpu]; exact ok.proc, fun i hi => same.plock i c' hc (ok.lock i ?_), fun q hq => ?_,
    fun q hq => ?_, fun q hq => ?_⟩
  · rw [← hi]
    unfold State.holds
    rw [cpu]
    cases exec : (s.cpu c').exec with
    | proc q =>
      show (s.stack q).head?.bind _ = (s'.stack q).head?.bind _
      rw [same.stack q c' hc (mine q (by rw [exec]; rfl))]
    | _ => rfl
  · rw [cpu] at hq
    have on := mine q (by rcases hq with hq | hq <;> rw [hq] <;> rfl)
    rw [same.saved q c' hc on, same.state q c' hc on]
    exact ok.goes q hq
  · rw [cpu] at hq
    have on := mine q (by rcases hq with hq | hq <;> rw [hq] <;> rfl)
    rw [same.saved q c' hc on, ne_eq, same.state q c' hc on]
    exact ok.comes q hq
  · rw [cpu] at hq
    have on := mine q (by rw [hq]; rfl)
    rw [same.stack q c' hc on, same.saved q c' hc on, same.state q c' hc on]
    exact ok.runs q hq

/-- What a process's lock sees of a step: it is left alone, taken or released. -/
inductive Locks (s s' : State n) (c : Nat) : Prop
  | same (plock : s'.plock = s.plock) (holds : s'.holds c = s.holds c)
  | acquires {i : Fin n} (free : s.plock i = none)
      (plock : s'.plock = update s.plock i (some c)) (holds : s'.holds c = some i)
  | releases {i : Fin n} (held : s.holds c = some i)
      (plock : s'.plock = update s.plock i none) (holds : s'.holds c = none)

theorem Locks.others (h : Locks s s' c) (ok : CpuOk s c) (i : Fin n) (c' : Nat) (hc : c' ≠ c)
    (held : s.plock i = some c') : s'.plock i = some c' := by
  cases h with
  | same plock holds => rw [plock, held]
  | @acquires j free plock holds =>
    have ne : i ≠ j := by
      rintro rfl
      rw [free] at held
      cases held
    rw [plock, update_of_ne ne, held]
  | @releases j held' plock holds =>
    have ne : i ≠ j := by
      rintro rfl
      rw [ok.lock i held'] at held
      cases held
      exact hc rfl
    rw [plock, update_of_ne ne, held]

theorem Locks.own (h : Locks s s' c) (ok : CpuOk s c) (i : Fin n) (holds : s'.holds c = some i) :
    s'.plock i = some c := by
  cases h with
  | same plock same =>
    rw [plock]
    exact ok.lock i (same ▸ holds)
  | acquires free plock now =>
    rw [now] at holds
    cases holds
    rw [plock, update_self]
  | releases held plock now =>
    rw [now] at holds
    cases holds

/-- The changes that a process makes to the state of another under its lock. -/
def Steady (a b : ProcState) : Prop :=
  b = a ∨ a = .sleeping ∧ b = .runnable ∨ a = .zombie ∧ b = .unused

theorem Steady.running (h : Steady a b) : b = .running ↔ a = .running := by
  rcases h with rfl | ⟨rfl, rfl⟩ | ⟨rfl, rfl⟩ <;> simp

theorem Steady.of_unused (h : Steady a b) (hb : b ≠ .unused) : a ≠ .unused := by
  rcases h with rfl | ⟨rfl, rfl⟩ | ⟨rfl, rfl⟩
  · exact hb
  · nofun
  · nofun

theorem Steady.used (h : Steady a b) (ha : a = .used) : b = .used := by
  rcases h with rfl | ⟨rfl, -⟩ | ⟨rfl, -⟩
  · exact ha
  · cases ha
  · cases ha

@[simp] theorem parked_cons (f : Frame n) (rest : List (Frame n)) :
    Parked (f :: rest) ↔ f.parked = true := by
  simp [Parked]

/-- The state of `q` after a step of another process: as `Steady` says, or `RUNNABLE` when `fork` is
done with it. -/
def Change (s s' : State n) (q : Fin n) : Prop :=
  Steady (s.state q) (s'.state q) ∨
  s.state q = .used ∧ s'.state q = .runnable ∧ ∀ q', q ∉ made (s'.stack q')

theorem Change.running (h : Change s s' q) : s'.state q = .running ↔ s.state q = .running := by
  rcases h with steady | ⟨was, now, -⟩
  · exact steady.running
  · rw [was, now]
    simp

theorem Change.of_unused (h : Change s s' q) (hq : s'.state q ≠ .unused) : s.state q ≠ .unused := by
  rcases h with steady | ⟨was, -⟩
  · exact steady.of_unused hq
  · rw [was]
    nofun

/-- A step of the process `p`, which runs on the processor `c`, up to the next point where its lock
or another's changes hands. -/
theorem Inv.thread (h : Inv s) (on : (s.cpu c).exec = .proc p) (was : s.state p = .running)
    (cpu : s'.cpu = s.cpu) (saved : s'.saved = s.saved)
    (stack : ∀ q, q ≠ p → s'.stack q = s.stack q) (locks : Locks s s' c)
    (state : ∀ q, q ≠ p → Change s s' q) (run : s'.state p = .running ↔ ¬Parked (s'.stack p))
    (known : ∀ np ∈ made (s'.stack p), np ∈ made (s.stack p) ∨
      s.state np = .used ∧ ∀ q, np ∉ made (s.stack q))
    (nodup : (made (s'.stack p)).Nodup)
    (below : ∀ f ∈ (s'.stack p).tail, f.holds p = none) : Inv s' := by
  have ok := h.cpu c
  have mine : (s.cpu c).proc = some p := by rw [ok.proc, on]; rfl
  have away : ∀ q c', c' ≠ c → (s.cpu c').proc = some q → q ≠ p := by
    rintro q c' hc hq rfl
    exact hc (h.one c' c q hq mine)
  have before : ∀ q np, np ∈ made (s'.stack q) → np ∈ made (s.stack q) ∨
      q = p ∧ s.state np = .used ∧ ∀ q, np ∉ made (s.stack q) := by
    intro q np hnp
    by_cases hq : q = p
    · subst hq
      exact (known np hnp).imp_right fun new => ⟨rfl, new⟩
    · rw [stack q hq] at hnp
      exact .inl hnp
  refine ⟨fun c' => ?_, ?_, fun q hq => ?_, fun q off hq => ?_, fun q hq => ?_, fun q => ?_,
    fun q np hnp => ?_, fun q => ?_, fun q q' np hq hq' => ?_⟩
  · by_cases hc : c' = c
    · subst hc
      refine .of_exec (.proc p) (by rw [cpu, on]) (by rwa [cpu]) (locks.own ok) ⟨run, ?_⟩
      rw [saved]
      exact (ok.runs p on).2
    · refine h.elsewhere ⟨fun c' _ => by rw [cpu], locks.others ok, fun q c' hc hq => ?_,
        fun q c' _ _ => by rw [saved], fun q c' hc hq => ?_⟩ hc
      · exact stack q (away q c' hc hq)
      · exact (state q (away q c' hc hq)).running
  · rw [cpu]
    exact h.one
  · rw [cpu]
    by_cases hp : q = p
    · subst hp
      exact ⟨c, mine⟩
    · exact h.running q ((state q hp).running.mp hq)
  · rw [cpu] at off
    rw [saved]
    have hp : q ≠ p := by
      rintro rfl
      exact off c mine
    exact h.saved q off ((state q hp).of_unused hq)
  · rw [saved] at hq
    by_cases hp : q = p
    · subst hp
      rw [(ok.runs q on).2] at hq
      cases hq
    · rw [stack q hp]
      exact h.parked q hq
  · by_cases hp : q = p
    · subst hp
      exact below
    · rw [stack q hp]
      exact h.below q
  · have used : s.state np = .used := by
      rcases before q np hnp with was | ⟨-, used, -⟩
      · exact h.used q np was
      · exact used
    have ne : np ≠ p := by
      rintro rfl
      rw [was] at used
      cases used
    rcases state np ne with steady | ⟨-, -, gone⟩
    · exact steady.used used
    · exact (gone q hnp).elim
  · by_cases hp : q = p
    · subst hp
      exact nodup
    · rw [stack q hp]
      exact h.nodup q
  · rcases before q np hq with had | ⟨hp, -, new⟩
    · rcases before q' np hq' with had' | ⟨-, -, new⟩
      · exact h.apart q q' np had had'
      · exact (new q had).elim
    · rcases before q' np hq' with had' | ⟨hp', -, -⟩
      · exact (new q' had').elim
      · rw [hp, hp']

/-- `t` is `s` but for states that may change under their locks and fields that do not matter here.
-/
structure Calm (s t : State n) : Prop where
  cpu : t.cpu = s.cpu
  saved : t.saved = s.saved
  stack : t.stack = s.stack
  plock : t.plock = s.plock
  state : ∀ q, Steady (s.state q) (t.state q)

theorem Calm.refl (s : State n) : Calm s s := ⟨rfl, rfl, rfl, rfl, fun _ => .inl rfl⟩

theorem Calm.setWaitLock (h : Calm s t) (o : Option Nat) :
    Calm s (t.setWaitLock o) := { h with }

theorem Calm.set (h : Steady (s.state i) v.state) : Calm s (s.set i v) where
  cpu := rfl
  saved := rfl
  stack := rfl
  plock := rfl
  state q := by
    show Steady _ ((s.table.set i v).proc q).state
    rw [set_proc]
    split
    next e => exact e ▸ h
    next => exact .inl rfl

theorem Calm.wake (s : State n) (chan : Option (Chan n)) (i : Fin n) : Calm s (s.wake chan i) := by
  unfold State.wake
  split
  next asleep => exact .set (.inr (.inl ⟨asleep.1, rfl⟩))
  next => exact .refl s

theorem Calm.kill (s : State n) (i : Fin n) : Calm s (s.set i (s.proc i).kill) := by
  refine .set ?_
  unfold Proc.kill
  split
  next asleep => exact .inr (.inl ⟨asleep, rfl⟩)
  next => exact .inl rfl

theorem Calm.freeproc (zombie : (s.proc i).state = .zombie) :
    Calm s { s with table := s.table.freeproc i } :=
  .set (.inr (.inr ⟨zombie, rfl⟩))

section

variable {f : Frame n} {rest : List (Frame n)}

theorem made_cons (f : Frame n) (rest : List (Frame n)) :
    made (f :: rest) = f.makes.toList ++ made rest := by
  rw [made, filterMap_cons]
  cases f.makes <;> rfl

theorem made_sublist (makes : g.makes = none ∨ g.makes = f.makes) :
    (made [g]).Sublist f.makes.toList := by
  rw [made_cons, show made [] = ([] : List (Fin n)) from rfl, append_nil]
  rcases makes with none | same
  · rw [none]
    exact nil_sublist _
  · rw [same]

theorem Inv.inner (h : Inv s) (at_ : s.stack p = f :: rest) (hg : g ∈ rest) :
    g.holds p = none := h.below p g (by rwa [at_])

theorem Frame.holds_of_parked (h : g.parked) : g.holds p = some p := by
  cases g <;> first | rfl | cases h

theorem Inv.rest_holds (h : Inv s) (at_ : s.stack p = f :: rest) :
    rest.head?.bind (Frame.holds p) = none := by
  cases rest with
  | nil => rfl
  | cons g rest => exact h.inner at_ (mem_cons_self ..)

theorem Inv.rest_active (h : Inv s) (at_ : s.stack p = f :: rest) : ¬Parked rest := by
  rintro ⟨g, hg, parked⟩
  have none := h.inner at_ (mem_of_mem_head? hg)
  rw [Frame.holds_of_parked parked] at none
  cases none

theorem holds_of_stack (on : (s.cpu c).exec = .proc p) :
    s.holds c = (s.stack p).head?.bind (Frame.holds p) := by
  unfold State.holds
  rw [on]

theorem holds_setStack (on : (t.cpu c).exec = .proc p) (stack : List (Frame n)) :
    (t.setStack p stack).holds c = stack.head?.bind (Frame.holds p) := by
  rw [holds_of_stack (s := t.setStack p stack) on]
  show (update t.stack p stack p).head?.bind _ = _
  rw [update_self]

theorem Inv.was_running (h : Inv s) (on : (s.cpu c).exec = .proc p) (at_ : s.stack p = f :: rest)
    (active : f.parked = false) : s.state p = .running := by
  refine (((h.cpu c).runs p on).1).mpr ?_
  rw [at_, parked_cons, active]
  nofun

/-- The process `p` goes on with the calls `new` in the place of its innermost one. -/
theorem Inv.goOn (h : Inv s) (on : (s.cpu c).exec = .proc p) (at_ : s.stack p = f :: rest)
    (active : f.parked = false) (new : List (Frame n)) (cpu : t.cpu = s.cpu)
    (saved : t.saved = s.saved) (stack : t.stack = s.stack)
    (locks : Locks s (t.setStack p (new ++ rest)) c)
    (state : ∀ q, q ≠ p → Steady (s.state q) (t.state q))
    (run : t.state p = .running ↔ ¬Parked (new ++ rest)) (sub : (made new).Sublist f.makes.toList)
    (below : ∀ g ∈ new.tail, g.holds p = none) : Inv (t.setStack p (new ++ rest)) := by
  have mine : (t.setStack p (new ++ rest)).stack p = new ++ rest := update_self ..
  have was := h.was_running on at_ active
  have sub' : (made (new ++ rest)).Sublist (made (s.stack p)) := by
    rw [at_, made_cons, made, filterMap_append]
    exact sub.append_right _
  refine h.thread on was cpu saved (fun q hq => ?_) locks (fun q hq => .inl (state q hq))
    (by rwa [mine]) ?_ ?_ ?_
  · show update t.stack p _ q = _
    rw [update_of_ne hq, stack]
  · rw [mine]
    exact fun np hnp => .inl (sub'.subset hnp)
  · rw [mine]
    exact (h.nodup p).sublist sub'
  · rw [mine]
    intro g hg
    cases new with
    | nil => exact h.inner at_ (mem_of_mem_tail hg)
    | cons g' new =>
      rcases mem_append.mp hg with hg | hg
      · exact below g hg
      · exact h.inner at_ hg

variable (h : Inv s) (on : (s.cpu c).exec = .proc p) (at_ : s.stack p = f :: rest)
  (active : f.parked = false)

include h on at_ active

theorem Inv.goto (calm : Calm s t) (holds : g.holds p = f.holds p) (active' : g.parked = false)
    (makes : g.makes = none ∨ g.makes = f.makes) : Inv (t.setStack p (g :: rest)) := by
  have was := h.was_running on at_ active
  refine h.goOn on at_ active [g] calm.cpu calm.saved calm.stack (.same calm.plock ?_)
    (fun q _ => calm.state q) ?_ (made_sublist makes) nofun
  · rwa [holds_setStack (by rw [calm.cpu, on]), holds_of_stack on, at_]
  · rw [(calm.state p).running]
    simp [was, active']

theorem Inv.callWakeup (calm : Calm s t) (held : f.holds p = none) (holds : g.holds p = none)
    (chan : Option (Chan n)) (i : Nat) (makes : g.makes = none ∨ g.makes = f.makes) :
    Inv (t.setStack p (.wakeup chan i :: g :: rest)) := by
  have was := h.was_running on at_ active
  refine h.goOn on at_ active [.wakeup chan i, g] calm.cpu calm.saved calm.stack
    (.same calm.plock ?_) (fun q _ => calm.state q) ?_ (made_sublist makes) ?_
  · rw [holds_setStack (by rw [calm.cpu, on]), holds_of_stack on, at_]
    exact held.symm
  · rw [(calm.state p).running]
    simp [was, Frame.parked]
  · intro g' hg'
    rwa [mem_singleton.mp hg']

theorem Inv.acquire
    (taken : ((s.acquire c i).bind fun t => some (t.setStack p (g :: rest))) = some s')
    (holds : g.holds p = some i) (active' : g.parked = false)
    (makes : g.makes = none ∨ g.makes = f.makes) : Inv s' := by
  have was := h.was_running on at_ active
  obtain ⟨t, ht, hs⟩ := Option.bind_eq_some_iff.mp taken
  obtain ⟨free, rfl⟩ := guarded ht
  cases hs
  refine h.goOn on at_ active [g] rfl rfl rfl (.acquires free rfl ?_)
    (fun q _ => .inl rfl) ?_ (made_sublist makes) nofun
  · rwa [holds_setStack (t := s.setPlock i (some c)) on]
  · exact iff_of_true was (by simp [active'])

theorem Inv.give (new : List (Frame n)) (calm : Calm s t) (held : f.holds p = some i)
    (holds : g.holds p = none) (active' : g.parked = false)
    (sub : (made (g :: new)).Sublist f.makes.toList) (below : ∀ g ∈ new, g.holds p = none) :
    Inv ((t.setPlock i none).setStack p (g :: (new ++ rest))) := by
  have was := h.was_running on at_ active
  refine h.goOn on at_ active (g :: new) (t := t.setPlock i none) calm.cpu calm.saved
    calm.stack (.releases (i := i) ?_ ?_ ?_) (fun q _ => calm.state q) ?_ sub below
  · rwa [holds_of_stack on, at_]
  · show update t.plock i none = _
    rw [calm.plock]
  · rwa [holds_setStack (by rw [← on, ← calm.cpu]; rfl)]
  · refine iff_of_true ((calm.state p).running.mpr was) ?_
    simp [active']

theorem Inv.giveTo (calm : Calm s t) (held : f.holds p = some i) (holds : g.holds p = none)
    (active' : g.parked = false) (makes : g.makes = none ∨ g.makes = f.makes) :
    Inv ((t.setPlock i none).setStack p (g :: rest)) :=
  h.give on at_ active [] calm held holds active' (made_sublist makes) nofun

theorem Inv.giveBack (calm : Calm s t) (held : f.holds p = some i) :
    Inv ((t.setPlock i none).setStack p rest) := by
  have was := h.was_running on at_ active
  refine h.goOn on at_ active [] (t := t.setPlock i none) calm.cpu calm.saved calm.stack
    (.releases (i := i) ?_ ?_ ?_) (fun q _ => calm.state q) ?_ (nil_sublist _) nofun
  · rwa [holds_of_stack on, at_]
  · show update t.plock i none = _
    rw [calm.plock]
  · rw [holds_setStack (by rw [← on, ← calm.cpu]; rfl)]
    exact h.rest_holds at_
  · exact iff_of_true ((calm.state p).running.mpr was) (h.rest_active at_)

theorem Inv.back (calm : Calm s t) (none : f.holds p = none) : Inv (t.setStack p rest) := by
  have was := h.was_running on at_ active
  refine h.goOn on at_ active [] calm.cpu calm.saved calm.stack (.same calm.plock ?_)
    (fun q _ => calm.state q) ?_ (nil_sublist _) nofun
  · rw [holds_setStack (by rw [calm.cpu, on]), holds_of_stack on, at_]
    exact (h.rest_holds at_).trans none.symm
  · exact iff_of_true ((calm.state p).running.mpr was) (h.rest_active at_)

theorem Inv.park (cpu : t.cpu = s.cpu) (saved : t.saved = s.saved) (stack : t.stack = s.stack)
    (plock : t.plock = s.plock) (state : ∀ q, q ≠ p → t.state q = s.state q)
    (still : t.state p ≠ .running) (held : f.holds p = some p)
    (why : Why) : Inv (t.setStack p (.sched why :: rest)) := by
  refine h.goOn on at_ active [.sched why] cpu saved stack (.same plock ?_)
    (fun q hq => .inl (state q hq)) ?_ (nil_sublist _) nofun
  · rw [holds_setStack (by rw [cpu, on]), holds_of_stack on, at_]
    exact held.symm
  · exact iff_of_false still (by simp [Frame.parked])

end

@[simp] theorem setExec_cpu (t : State n) (c : Nat) (e : Exec n) :
    (t.setExec c e).cpu c = { t.cpu c with exec := e } := update_self ..

@[simp] theorem setProc_cpu (t : State n) (c : Nat) (o : Option (Fin n)) :
    (t.setProc c o).cpu c = { t.cpu c with proc := o } := update_self ..

theorem setExec_of_ne (hc : c' ≠ c) : (t.setExec c e).cpu c' = t.cpu c' := update_of_ne hc ..

theorem setProc_of_ne (hc : c' ≠ c) : (t.setProc c o).cpu c' = t.cpu c' := update_of_ne hc ..

theorem Calm.set_same (same : v.state = (s.proc i).state) :
    Calm s (s.set i v) := .set (.inl same)

theorem state_set : (s.set i v).state q = if q = i then v.state else s.state q := by
  show ((s.table.set i v).proc q).state = _
  rw [set_proc]
  split <;> rfl

section

variable (h : Inv s) {rest : List (Frame n)}

include h

/-- A step that changes what the processor `c` executes. -/
theorem Inv.turn (same : Elsewhere s s' c) (ok : CpuOk s' c)
    (frames : ∀ q, (made (s'.stack q)).Sublist (made (s.stack q)) ∧
      ∀ f ∈ (s'.stack q).tail, f.holds q = none)
    (used : ∀ q, s.state q = .used → s'.state q = .used)
    (mine : ∀ q, (s'.cpu c).proc = some q →
      (s.cpu c).proc = some q ∨ ∀ c', (s.cpu c').proc ≠ some q)
    (running : ∀ q, s'.state q = .running →
      (s'.cpu c).proc = some q ∨ s.state q = .running ∧ (s.cpu c).proc ≠ some q)
    (saved : ∀ q, (s'.cpu c).proc ≠ some q → s'.state q ≠ .unused →
      s'.saved q = true ∨ (s.cpu c).proc ≠ some q ∧ s.state q ≠ .unused ∧ s'.saved q = s.saved q)
    (parked : ∀ q, s'.saved q = true → Parked (s'.stack q)) : Inv s' := by
  have distinct : ∀ c' q, c' ≠ c → (s'.cpu c).proc = some q → (s'.cpu c').proc ≠ some q := by
    intro c' q hc hq hq'
    rw [same.cpu c' hc] at hq'
    rcases mine q hq with was | absent
    · exact hc (h.one c' c q hq' was)
    · exact absent c' hq'
  refine ⟨fun c' => ?_, fun c1 c2 q h1 h2 => ?_, fun q hq => ?_, fun q off hq => ?_, parked,
    fun q => ?_, fun q np hnp => ?_, fun q => ?_, fun q q' np hq hq' => ?_⟩
  · by_cases hc : c' = c
    · subst hc
      exact ok
    · exact h.elsewhere same hc
  · by_cases hc1 : c1 = c <;> by_cases hc2 : c2 = c
    · rw [hc1, hc2]
    · subst hc1
      exact (distinct c2 q hc2 h1 h2).elim
    · subst hc2
      exact (distinct c1 q hc1 h2 h1).elim
    · rw [same.cpu c1 hc1] at h1
      rw [same.cpu c2 hc2] at h2
      exact h.one c1 c2 q h1 h2
  · rcases running q hq with now | ⟨was, other⟩
    · exact ⟨c, now⟩
    · obtain ⟨c', hc'⟩ := h.running q was
      have hc : c' ≠ c := by
        rintro rfl
        exact other hc'
      exact ⟨c', by rw [same.cpu c' hc, hc']⟩
  · rcases saved q (off c) hq with now | ⟨other, was, same'⟩
    · exact now
    · rw [same']
      refine h.saved q (fun c' hc' => ?_) was
      have hc : c' ≠ c := by
        rintro rfl
        exact other hc'
      rw [← same.cpu c' hc] at hc'
      exact off c' hc'
  · exact (frames q).2
  · exact used np (h.used q np ((frames q).1.subset hnp))
  · exact (h.nodup q).sublist (frames q).1
  · exact h.apart q q' np ((frames q).1.subset hq) ((frames q').1.subset hq')

/-- The entry `np`, which is `UNUSED` and locked, becomes a process that `fork` is making. -/
theorem Inv.made_new (on : (s.cpu c).exec = .proc p) (at_ : s.stack p = .forkLocked np :: rest)
    (unused : s.state np = .unused) :
    Inv (((s.make np true).setPlock np none).setStack p (.forkParent np :: rest)) := by
  have was := h.was_running on at_ rfl
  have held : s.plock np = some c := (h.cpu c).lock np (by rw [holds_of_stack on, at_]; rfl)
  have ne : p ≠ np := by
    rintro rfl
    rw [was] at unused
    cases unused
  have absent := h.absent (by rw [unused]; nofun) held (by
    rw [(h.cpu c).proc, on]
    exact fun e => ne (Option.some.inj e))
  have unknown : ∀ q, np ∉ made (s.stack q) := by
    intro q hq
    rw [h.used q np hq] at unused
    cases unused
  have state : ∀ q, q ≠ np → (s.make np true).state q = s.state q := fun q hq => by
    show ((s.table.take np).proc q).state = _
    rw [take_proc, if_neg hq]
    rfl
  have used : (s.make np true).state np = .used := by
    show ((s.table.take np).proc np).state = _
    rw [take_proc, if_pos rfl]
  have stack : ∀ q, q ≠ np → (s.make np true).stack q = s.stack q := fun q hq =>
    update_of_ne hq ..
  have start : (s.make np true).stack np = [.sched .start] := update_self ..
  have saved : ∀ q, q ≠ np → (s.make np true).saved q = s.saved q := fun q hq =>
    update_of_ne hq ..
  have savedNow : (s.make np true).saved np = true := update_self ..
  -- the entry is on no processor, so that nothing that one executes changes
  have same : ∀ q c', (s.cpu c').proc = some q → q ≠ np := by
    rintro q c' hq rfl
    exact absent c' hq
  have made_inv : Inv (s.make np true) := by
    have elsewhere : ∀ c, Elsewhere s (s.make np true) c := fun c =>
      ⟨fun _ _ => rfl, fun _ _ _ => id, fun q c' _ hq => stack q (same q c' hq),
        fun q c' _ hq => saved q (same q c' hq), fun q c' _ hq => by rw [state q (same q c' hq)]⟩
    refine h.turn (elsewhere c) (h.elsewhere (elsewhere (c + 1)) (Nat.ne_of_lt (Nat.lt_succ_self c)))
      (fun q => ?_) (fun q hq => ?_) (fun q hq => .inl hq) (fun q hq => ?_) (fun q off hq => ?_)
      (fun q hq => ?_)
    · by_cases hq : q = np
      · rw [hq, start]
        exact ⟨nil_sublist _, nofun⟩
      · rw [stack q hq]
        exact ⟨.refl _, h.below q⟩
    · rw [state q]
      · exact hq
      · rintro rfl
        rw [unused] at hq
        cases hq
    · have hnp : q ≠ np := by
        rintro rfl
        rw [used] at hq
        cases hq
      rw [state q hnp] at hq
      by_cases on' : (s.cpu c).proc = some q
      · exact .inl on'
      · exact .inr ⟨hq, on'⟩
    · by_cases hnp : q = np
      · rw [hnp]
        exact .inl savedNow
      · rw [state q hnp] at hq
        exact .inr ⟨off, hq, saved q hnp⟩
    · by_cases hnp : q = np
      · rw [hnp, start]
        exact (parked_cons _ _).mpr rfl
      · rw [saved q hnp] at hq
        rw [stack q hnp]
        exact h.parked q hq
  -- it is now known to this call
  have at' : (s.make np true).stack p = .forkLocked np :: rest := by rw [stack p ne, at_]
  have mine : (((s.make np true).setPlock np none).setStack p (.forkParent np :: rest)).stack p =
    .forkParent np :: rest := update_self ..
  have unknown' : ∀ q, np ∉ made ((s.make np true).stack q) := by
    intro q hq
    by_cases hnp : q = np
    · rw [hnp, start] at hq
      cases hq
    · rw [stack q hnp] at hq
      exact unknown q hq
  refine made_inv.thread (c := c) on ?_ rfl rfl (fun q hq => update_of_ne hq ..)
    (.releases (i := np) ?_ rfl ?_) (fun q _ => .inl (.inl rfl)) ?_ ?_ ?_ ?_
  · rwa [state p ne]
  · rw [holds_of_stack (s := s.make np true) on, at']
    rfl
  · rw [holds_setStack (t := (s.make np true).setPlock np none) on]
    rfl
  · rw [mine]
    exact iff_of_true ((state p ne).trans was) (by simp [Frame.parked])
  · rw [mine, at', made_cons, made_cons]
    intro np' hnp'
    rcases mem_append.mp hnp' with new | old
    · rw [mem_singleton.mp new]
      exact .inr ⟨used, unknown'⟩
    · exact .inl (mem_append_right _ old)
  · rw [mine, made_cons]
    refine nodup_cons.mpr ⟨fun hnp => unknown p ?_, ?_⟩
    · rw [at_, made_cons]
      exact mem_append_right _ hnp
    · have nodup := h.nodup p
      rwa [at_, made_cons] at nodup
  · rw [mine]
    exact fun g hg => h.inner at_ hg

/-- `fork` is done with the process that it made. -/
theorem Inv.made_done (on : (s.cpu c).exec = .proc p)
    (at_ : s.stack p = .forkRunLocked np :: rest) :
    Inv (((s.set np { s.proc np with state := .runnable }).setPlock np none).setStack p rest) := by
  have was := h.was_running on at_ rfl
  have here : np ∈ made (s.stack p) := by
    rw [at_, made_cons]
    exact mem_append_left _ (mem_singleton_self np)
  have used := h.used p np here
  have ne : p ≠ np := by
    rintro rfl
    rw [was] at used
    cases used
  have nodup : np ∉ made rest ∧ (made rest).Nodup := by
    have all := h.nodup p
    rw [at_, made_cons] at all
    exact nodup_cons.mp all
  set t := ((s.set np { s.proc np with state := .runnable }).setPlock np none).setStack p rest
  have mine : t.stack p = rest := update_self ..
  have others : ∀ q, q ≠ p → t.stack q = s.stack q := fun q hq => update_of_ne hq ..
  refine h.thread on was rfl rfl others (.releases (i := np) ?_ rfl ?_) (fun q hq => ?_) ?_ ?_ ?_ ?_
  · rw [holds_of_stack on, at_]
    rfl
  · rw [holds_setStack (t := (s.set np _).setPlock np none) on]
    exact h.rest_holds at_
  · by_cases hnp : q = np
    · refine .inr ⟨hnp ▸ used, ?_, fun q' hq' => ?_⟩
      · show (s.set np _).state q = _
        rw [state_set, if_pos hnp]
      · rw [hnp] at hq'
        by_cases hp : q' = p
        · rw [hp, mine] at hq'
          exact nodup.1 hq'
        · rw [others q' hp] at hq'
          exact hp (h.apart q' p np hq' here)
    · refine .inl (.inl ?_)
      show (s.set np _).state q = _
      rw [state_set, if_neg hnp]
  · rw [mine]
    refine iff_of_true ?_ (h.rest_active at_)
    show (s.set np _).state p = _
    rwa [state_set, if_neg ne]
  · rw [mine, at_, made_cons]
    exact fun np' hnp' => .inl (mem_append_right _ hnp')
  · rw [mine]
    exact nodup.2
  · rw [mine]
    exact fun g hg => h.inner at_ (mem_of_mem_tail hg)

/-- A half of `swtch` by which the processor `c` goes from one thing to another for the same
process, whose lock it holds. -/
theorem Inv.half (on : (s.cpu c).exec = e) (mine : e.process = some p)
    (mine' : e'.process = some p) (cpu : s'.cpu = update s.cpu c { s.cpu c with exec := e' })
    (plock : s'.plock = s.plock) (state : s'.state = s.state)
    (stack : ∀ q, q ≠ p → s'.stack q = s.stack q) (saved : ∀ q, q ≠ p → s'.saved q = s.saved q)
    (frames : (made (s'.stack p)).Sublist (made (s.stack p)) ∧
      ∀ f ∈ (s'.stack p).tail, f.holds p = none)
    (parked : s'.saved p = true → Parked (s'.stack p)) (ok' : CpuOk s' c) : Inv s' := by
  have ok := h.cpu c
  have was : (s.cpu c).proc = some p := by rw [ok.proc, on, mine]
  have proc : (s'.cpu c).proc = some p := by rw [cpu, update_self, was]
  have away : ∀ q c', c' ≠ c → (s.cpu c').proc = some q → q ≠ p := by
    rintro q c' hc hq rfl
    exact hc (h.one c' c q hq was)
  refine h.turn (c := c) ⟨fun c' hc => by rw [cpu, update_of_ne hc],
    fun i c' _ hi => by rw [plock, hi], fun q c' hc hq => stack q (away q c' hc hq),
    fun q c' hc hq => saved q (away q c' hc hq), fun q _ _ _ => by rw [state]⟩ ok'
    (fun q => ?_) (fun q hq => by rw [state, hq]) (fun q hq => .inl ?_) (fun q hq => ?_)
    (fun q off hq => ?_) fun q hq => ?_
  · by_cases hp : q = p
    · rwa [hp]
    · rw [stack q hp]
      exact ⟨.refl _, h.below q⟩
  · rw [was, ← proc, hq]
  · by_cases hp : q = p
    · rw [hp]
      exact .inl proc
    · rw [state] at hq
      refine .inr ⟨hq, ?_⟩
      rw [was]
      exact fun e => hp (Option.some.inj e).symm
  · have hp : q ≠ p := by
      rintro rfl
      exact off proc
    rw [state] at hq
    refine .inr ⟨?_, hq, saved q hp⟩
    rwa [was, ← proc]
  · by_cases hp : q = p
    · rw [hp] at hq ⊢
      exact parked hq
    · rw [saved q hp] at hq
      rw [stack q hp]
      exact h.parked q hq

theorem Inv.save (on : (s.cpu c).exec = .proc p) (at_ : s.stack p = .sched why :: rest)
    (held : s.plock p = some c)
    (still : s.state p ≠ .running) : Inv ((s.setSaved p true).setExec c (.toSched p)) := by
  have saved : ((s.setSaved p true).setExec c (.toSched p)).saved p = true := update_self ..
  refine h.half on rfl rfl rfl rfl rfl (fun _ _ => rfl) (fun q hq => update_of_ne hq ..)
    ⟨.refl _, h.below p⟩ (fun _ => ?_)
    (.of_exec (.toSched p) (by rw [setExec_cpu]) ?_ (fun i hi => ?_) ⟨still, saved⟩)
  · show Parked (s.stack p)
    rw [at_]
    exact (parked_cons _ _).mpr rfl
  · rw [setExec_cpu]
    exact (h.cpu c).proc.trans (by rw [on]; rfl)
  · unfold State.holds at hi
    rw [setExec_cpu] at hi
    cases hi
    exact held

theorem Inv.frameStep (on : (s.cpu c).exec = .proc p) (at_ : s.stack p = f :: rest)
    (hs : s.frameStep c p ok f rest = some s') : Inv s' := by
  cases f with
  | wakeup chan i =>
    simp only [State.frameStep] at hs
    split at hs
    · split at hs
      · cases hs
        exact h.goto on at_ rfl (.refl s) rfl rfl (.inl rfl)
      · exact h.acquire on at_ rfl hs rfl rfl (.inl rfl)
    · cases hs
      exact h.back on at_ rfl (.refl s) rfl
  | wakeupLocked chan i =>
    cases hs
    exact h.giveTo on at_ rfl (.wake s chan i) rfl rfl rfl (.inl rfl)
  | kill | forkScan =>
    simp only [State.frameStep] at hs
    split at hs
    · exact h.acquire on at_ rfl hs rfl rfl (.inl rfl)
    · cases hs
      exact h.back on at_ rfl (.refl s) rfl
  | killLocked pid i =>
    simp only [State.frameStep] at hs
    split at hs
    · cases hs
      exact h.giveBack on at_ rfl (.kill s i) rfl
    · cases hs
      exact h.giveTo on at_ rfl (.refl s) rfl rfl rfl (.inl rfl)
  | killed | yield | sleep | exitAcquire | waitKilled =>
    exact h.acquire on at_ rfl hs rfl rfl (.inl rfl)
  | killedLocked set =>
    cases hs
    refine h.giveBack on at_ rfl ?_ rfl
    split
    · exact .set_same rfl
    · exact .refl s
  | yieldLocked =>
    cases hs
    refine h.park on at_ rfl ?_ ?_ ?_ ?_ (fun q hq => ?_) ?_ rfl _
    · rfl
    · rfl
    · rfl
    · rfl
    · rw [state_set, if_neg hq]
    · rw [state_set, if_pos rfl]
      nofun
  | sleepLocked chan wl =>
    cases hs
    refine h.park on at_ rfl ?_ ?_ ?_ ?_ (fun q hq => ?_) ?_ rfl _
    · split <;> rfl
    · split <;> rfl
    · split <;> rfl
    · split <;> rfl
    · rw [state_set, if_neg hq]
      split <;> rfl
    · rw [state_set, if_pos rfl]
      nofun
  | sched why =>
    obtain ⟨⟨held, still⟩, rfl⟩ := guarded hs
    exact h.save on at_ held still
  | back why =>
    cases why with
    | sleep wl =>
      cases hs
      exact h.giveTo on at_ rfl (.set_same rfl) rfl rfl rfl (.inl rfl)
    | yield | start =>
      cases hs
      exact h.giveBack on at_ rfl (.refl s) rfl
    | exit => cases hs
  | sleepRelock wl =>
    simp only [State.frameStep] at hs
    split at hs
    · obtain ⟨-, rfl⟩ := guarded hs
      exact h.back on at_ rfl ((Calm.refl s).setWaitLock _) rfl
    · cases hs
      exact h.back on at_ rfl (.refl s) rfl
  | exit | wait =>
    obtain ⟨-, rfl⟩ := guarded hs
    exact h.goto on at_ rfl ((Calm.refl s).setWaitLock _) rfl rfl (.inl rfl)
  | exitReparent status i =>
    simp only [State.frameStep] at hs
    split at hs
    · split at hs
      · cases hs
        refine h.callWakeup on at_ rfl (g := .exitReparent status (i + 1)) ?_ rfl rfl _ _ (.inl rfl)
        exact .set_same rfl
      · cases hs
        exact h.goto on at_ rfl (.refl s) rfl rfl (.inl rfl)
    · cases hs
      exact h.callWakeup on at_ rfl (.refl s) rfl rfl _ _ (.inl rfl)
  | exitLocked status =>
    cases hs
    refine h.park on at_ rfl ?_ ?_ ?_ ?_ (fun q hq => ?_) ?_ rfl _
    · rfl
    · rfl
    · rfl
    · rfl
    · show (s.set p _).state q = _
      rw [state_set, if_neg hq]
    · show (s.set p _).state p ≠ _
      rw [state_set, if_pos rfl]
      nofun
  | forkLocked i =>
    simp only [State.frameStep] at hs
    split at hs
    next unused =>
      cases ok with
      | true =>
        cases hs
        exact h.made_new on at_ unused
      | false =>
        cases hs
        have calm : Calm s (s.make i false) := by
          refine ⟨rfl, rfl, rfl, rfl, fun q => .inl ?_⟩
          show (((s.table.take i).freeproc i).proc q).state = _
          rw [freeproc_proc]
          split
          next e => rw [e, State.state, unused]
          next hq =>
            rw [take_proc, if_neg hq]
            rfl
        exact h.giveBack on at_ rfl calm rfl
    next =>
      cases hs
      exact h.giveTo on at_ rfl (.refl s) rfl rfl rfl (.inl rfl)
  | forkParent np =>
    obtain ⟨-, rfl⟩ := guarded hs
    exact h.goto on at_ rfl (.set_same rfl) rfl rfl (.inr rfl)
  | forkRun np =>
    exact h.acquire on at_ rfl hs rfl rfl (.inr rfl)
  | forkRunLocked np =>
    cases hs
    exact h.made_done on at_
  | waitScan addr havekids i =>
    simp only [State.frameStep] at hs
    split at hs
    · split at hs
      · exact h.acquire on at_ rfl hs rfl rfl (.inl rfl)
      · cases hs
        exact h.goto on at_ rfl (.refl s) rfl rfl (.inl rfl)
    · split at hs
      · cases hs
        exact h.goto on at_ rfl (.refl s) rfl rfl (.inl rfl)
      · cases hs
        exact h.back on at_ rfl ((Calm.refl s).setWaitLock _) rfl
  | waitLocked addr i =>
    simp only [State.frameStep] at hs
    split at hs
    next zombie =>
      cases hs
      have calm : Calm s (if addr ∧ ¬ok then s else { s with table := s.table.freeproc i }) := by
        split
        · exact .refl s
        · exact .freeproc zombie
      exact h.giveBack on at_ rfl (calm.setWaitLock none) rfl
    next =>
      cases hs
      exact h.giveTo on at_ rfl (.refl s) rfl rfl rfl (.inl rfl)
  | waitKilledLocked addr =>
    simp only [State.frameStep] at hs
    split at hs
    · cases hs
      exact h.giveBack on at_ rfl ((Calm.refl s).setWaitLock none) rfl
    · cases hs
      exact h.give on at_ rfl [.waitScan addr false 0] (.refl s) rfl rfl rfl (nil_sublist _)
        (by simp [Frame.holds])

theorem Inv.push (on : (s.cpu c).exec = .proc p)
    (free : (s.stack p).head?.bind (Frame.holds p) = none) (holds : g.holds p = none)
    (makes : g.makes = none) : Inv (s.setStack p (g :: s.stack p)) := by
  have mine : (s.setStack p (g :: s.stack p)).stack p = g :: s.stack p := update_self ..
  have active : ¬Parked (s.stack p) := by
    rintro ⟨f, hf, parked⟩
    rw [Option.mem_def.mp hf, Option.bind_some, Frame.holds_of_parked parked] at free
    cases free
  have was : s.state p = .running := (((h.cpu c).runs p on).1).mpr active
  have same : made (g :: s.stack p) = made (s.stack p) := by
    rw [made_cons, makes]
    rfl
  refine h.thread on was rfl rfl (fun q hq => update_of_ne hq ..) (.same rfl ?_)
    (fun q _ => .inl (.inl rfl)) ?_ ?_ ?_ ?_
  · rwa [holds_setStack on, holds_of_stack on, free]
  · rw [mine]
    refine iff_of_true was ?_
    rw [parked_cons]
    intro parked
    rw [Frame.holds_of_parked parked] at holds
    cases holds
  · rw [mine, same]
    exact fun np hnp => .inl hnp
  · rw [mine, same]
    exact h.nodup p
  · rw [mine]
    intro f hf
    cases hp : s.stack p with
    | nil =>
      rw [hp] at hf
      cases hf
    | cons f' rest =>
      rw [hp] at hf free
      rcases mem_cons.mp hf with rfl | hf
      · exact free
      · exact h.inner hp hf

theorem Inv.loop (on : (s.cpu c).exec = .sched l) (idle : (Exec.sched l).process = none)
    (idle' : (Exec.sched l').process = none)
    (cpu : s'.cpu = update s.cpu c { s.cpu c with exec := .sched l' })
    (saved : s'.saved = s.saved) (stack : s'.stack = s.stack)
    (state : ∀ q, Steady (s.state q) (s'.state q)) (locks : Locks s s' c) : Inv s' := by
  have ok := h.cpu c
  have none : (s.cpu c).proc = none := by rw [ok.proc, on, idle]
  have exec : (s'.cpu c).exec = .sched l' := by rw [cpu, update_self]
  have proc : (s'.cpu c).proc = (s.cpu c).proc := by rw [cpu, update_self]
  refine h.turn (c := c) ⟨fun c' hc => by rw [cpu, update_of_ne hc], locks.others ok,
    fun _ _ _ _ => by rw [stack], fun _ _ _ _ => by rw [saved], fun q _ _ _ => (state q).running⟩
    (.of_exec (.sched l') exec (by rw [proc, none, idle']) (locks.own ok) ?_)
    (fun q => ?_) (fun q => (state q).used) (fun q hq => .inl (proc ▸ hq)) (fun q hq => ?_)
    (fun q off hq => ?_) fun q hq => ?_
  · cases l' <;> cases idle' <;> trivial
  · rw [stack]
    exact ⟨.refl _, h.below q⟩
  · refine .inr ⟨(state q).running.mp hq, ?_⟩
    rw [none]
    nofun
  · refine .inr ⟨proc ▸ off, (state q).of_unused hq, by rw [saved]⟩
  · rw [saved] at hq
    rw [stack]
    exact h.parked q hq

theorem Inv.pick (on : (s.cpu c).exec = .sched (.locked i)) (ready : s.state i = .runnable) :
    Inv (((s.set i { s.proc i with state := .running }).setProc c (some i)).setExec c
      (.sched (.switch i))) := by
  have ok := h.cpu c
  have none : (s.cpu c).proc = none := by rw [ok.proc, on]; rfl
  have held : s.plock i = some c := ok.lock i (by unfold State.holds; rw [on]; rfl)
  have absent := h.absent (i := i) (by rw [ready]; nofun) held (by rw [none]; nofun)
  have saved : s.saved i = true := h.saved i absent (by rw [ready]; nofun)
  set t := ((s.set i { s.proc i with state := .running }).setProc c (some i)).setExec c
    (.sched (.switch i)) with ht
  have state : ∀ q, q ≠ i → t.state q = s.state q := fun q hq => by
    show (s.set i _).state q = _
    rw [state_set, if_neg hq]
  have running : t.state i = .running := by
    show (s.set i _).state i = _
    rw [state_set, if_pos rfl]
  have cpu : t.cpu c = ⟨some i, .sched (.switch i)⟩ := by
    rw [ht, setExec_cpu, setProc_cpu]
  refine h.turn (c := c) ⟨fun c' hc => ?_, fun _ _ _ => id, fun _ _ _ _ => rfl, fun _ _ _ _ => rfl,
    fun q c' hc hq => ?_⟩
    (.of_exec (.sched (.switch i)) (by rw [cpu]) (by rw [cpu]; rfl) (fun j hj => ?_)
      ⟨running, saved⟩) (fun q => ⟨.refl _, h.below q⟩) (fun q hq => ?_) (fun q hq => ?_)
    (fun q hq => ?_) (fun q off hq => ?_) h.parked
  · rw [ht, setExec_of_ne hc, setProc_of_ne hc]
    rfl
  · rw [state q]
    rintro rfl
    exact absent c' hq
  · unfold State.holds at hj
    rw [cpu] at hj
    cases hj
    exact held
  · rw [state q]
    · exact hq
    · rintro rfl
      rw [ready] at hq
      cases hq
  · rw [cpu] at hq
    cases hq
    exact .inr absent
  · by_cases hi : q = i
    · rw [cpu, hi]
      exact .inl rfl
    · rw [state q hi] at hq
      refine .inr ⟨hq, ?_⟩
      rw [none]
      nofun
  · rw [cpu] at off
    have hi : q ≠ i := by
      rintro rfl
      exact off rfl
    rw [state q hi] at hq
    refine .inr ⟨?_, hq, rfl⟩
    rw [none]
    nofun

theorem Inv.toProc (on : (s.cpu c).exec = .sched (.switch i)) : Inv (s.setExec c (.toProc i)) := by
  have ok := h.cpu c
  refine h.half on rfl rfl rfl rfl rfl (fun _ _ => rfl) (fun _ _ => rfl)
    ⟨.refl _, h.below i⟩ (h.parked i)
    (.of_exec (.toProc i) (by rw [setExec_cpu]) ?_ (fun j hj => ?_) (ok.goes i (.inl on)))
  · rw [setExec_cpu, ok.proc, on]
    rfl
  · refine ok.lock j ?_
    unfold State.holds at hj ⊢
    rw [setExec_cpu] at hj
    rwa [on]

theorem Inv.load (on : (s.cpu c).exec = .toProc p) (at_ : s.stack p = .sched why :: rest) :
    Inv (((s.setSaved p false).setExec c (.proc p)).setStack p (.back why :: rest)) := by
  have ok := h.cpu c
  obtain ⟨running, saved⟩ := ok.goes p (.inr on)
  have held : s.plock p = some c := ok.lock p (by unfold State.holds; rw [on])
  set t := ((s.setSaved p false).setExec c (.proc p)).setStack p (.back why :: rest)
  have cpu : t.cpu c = { s.cpu c with exec := .proc p } := setExec_cpu _ c _
  have stack : t.stack p = .back why :: rest := update_self ..
  have savedNow : t.saved p = false := update_self ..
  refine h.half on rfl rfl rfl rfl rfl (fun q hq => update_of_ne hq ..)
    (fun q hq => update_of_ne hq ..) ?_ (fun hs => ?_)
    (.of_exec (.proc p) (by rw [cpu]) ?_ (fun j hj => ?_) ⟨iff_of_true running ?_, savedNow⟩)
  · rw [stack, at_]
    exact ⟨.refl _, fun g hg => h.inner at_ hg⟩
  · rw [savedNow] at hs
    cases hs
  · rw [cpu, ok.proc, on]
    rfl
  · unfold State.holds at hj
    rw [cpu] at hj
    replace hj : (List.head? _).bind (Frame.holds p) = some j := hj
    rw [stack] at hj
    cases hj
    exact held
  · rw [stack]
    simp [Frame.parked]

theorem Inv.toSched (on : (s.cpu c).exec = .toSched p) :
    Inv (s.setExec c (.sched (.back p))) := by
  have ok := h.cpu c
  refine h.half on rfl rfl rfl rfl rfl (fun _ _ => rfl) (fun _ _ => rfl)
    ⟨.refl _, h.below p⟩ (h.parked p)
    (.of_exec (.sched (.back p)) (by rw [setExec_cpu]) ?_ (fun j hj => ?_)
      (ok.comes p (.inr on)))
  · rw [setExec_cpu, ok.proc, on]
    rfl
  · refine ok.lock j ?_
    unfold State.holds at hj ⊢
    rw [setExec_cpu] at hj
    rwa [on]

theorem Inv.letGo (on : (s.cpu c).exec = .sched (.back i)) :
    Inv (((s.setProc c none).setPlock i none).setExec c (.sched (.acquire j))) := by
  have ok := h.cpu c
  obtain ⟨still, saved⟩ := ok.comes i (.inl on)
  have was : (s.cpu c).proc = some i := by rw [ok.proc, on]; rfl
  have held : s.plock i = some c := ok.lock i (by unfold State.holds; rw [on]; rfl)
  have cpu : (((s.setProc c none).setPlock i none).setExec c (.sched (.acquire j))).cpu c =
      ⟨none, .sched (.acquire j)⟩ := by
    rw [setExec_cpu]
    show (⟨((s.setProc c none).cpu c).proc, _⟩ : Cpu n) = _
    rw [setProc_cpu]
  refine h.turn (c := c) ⟨fun c' hc => ?_, fun k c' hc hk => ?_, fun _ _ _ _ => rfl,
    fun _ _ _ _ => rfl, fun _ _ _ _ => .rfl⟩
    (.of_exec (.sched (.acquire j)) (by rw [cpu]) (by rw [cpu]; rfl) (fun k hk => ?_) trivial)
    (fun q => ⟨.refl _, h.below q⟩) (fun _ => id) (fun q hq => ?_) (fun q hq => .inr ⟨hq, ?_⟩)
    (fun q off hq => ?_) h.parked
  · rw [setExec_of_ne hc]
    exact setProc_of_ne hc
  · show update s.plock i none k = _
    rw [update_of_ne, hk]
    rintro rfl
    rw [held] at hk
    cases hk
    exact hc rfl
  · unfold State.holds at hk
    rw [cpu] at hk
    cases hk
  · rw [cpu] at hq
    cases hq
  · rw [was]
    rintro e
    cases e
    exact still hq
  · by_cases hi : q = i
    · rw [hi]
      exact .inl saved
    · refine .inr ⟨?_, hq, rfl⟩
      rw [was]
      exact fun e => hi (Option.some.inj e).symm

theorem Inv.loopStep [NeZero n] {l : Loop n} (on : (s.cpu c).exec = .sched l)
    (hs : s.loopStep c l = some s') : Inv s' := by
  have holds : s.holds c = l.holds := by
    unfold State.holds
    rw [on]
  have after : ∀ (t : State n) (l' : Loop n), (t.setExec c (.sched l')).holds c = l'.holds := by
    intro t l'
    unfold State.holds
    rw [setExec_cpu]
  cases l with
  | acquire i =>
    obtain ⟨t, ht, rfl⟩ := Option.map_eq_some_iff.mp hs
    obtain ⟨free, rfl⟩ := guarded ht
    exact h.loop on rfl rfl rfl rfl rfl (fun _ => .inl rfl) (.acquires (i := i) free rfl (after _ _))
  | locked i =>
    simp only [State.loopStep] at hs
    split at hs
    next ready =>
      cases hs
      exact h.pick on ready
    next =>
      cases hs
      exact h.loop on rfl rfl rfl rfl rfl (fun _ => .inl rfl) (.releases (i := i) holds rfl (after _ _))
  | switch i =>
    cases hs
    exact h.toProc on
  | back i =>
    cases hs
    exact h.letGo on
  | wakeup i chan j =>
    simp only [State.loopStep] at hs
    split at hs
    next hj =>
      obtain ⟨t, ht, rfl⟩ := Option.map_eq_some_iff.mp hs
      obtain ⟨free, rfl⟩ := guarded ht
      exact h.loop on rfl rfl rfl rfl rfl (fun _ => .inl rfl)
        (.acquires (i := ⟨j, hj⟩) free rfl (after _ _))
    next =>
      cases hs
      exact h.loop on rfl rfl rfl rfl rfl (fun _ => .inl rfl)
        (.same rfl ((after _ _).trans holds.symm))
  | wakeupLocked i chan j =>
    cases hs
    have calm := Calm.wake s chan j
    have cpu : (((s.wake chan j).setPlock j none).setExec c (.sched (.wakeup i chan (j + 1)))).cpu =
        update s.cpu c { s.cpu c with exec := .sched (.wakeup i chan (j + 1)) } := by
      show update (s.wake chan j).cpu c { (s.wake chan j).cpu c with exec := _ } = _
      rw [calm.cpu]
    refine h.loop on rfl rfl cpu calm.saved calm.stack calm.state
      (.releases (i := j) holds ?_ (after _ _))
    show update (s.wake chan j).plock j none = _
    rw [calm.plock]

theorem Inv.step [NeZero n] {l : Label n} (hs : step l s = some s') : Inv s' := by
  cases l with
  | next c ok =>
    simp only [Switch.step, State.cpuStep] at hs
    split at hs
    next loop on => exact h.loopStep on hs
    next p on =>
      split at hs
      next why rest at_ =>
        cases hs
        exact h.load on at_
      next => cases hs
    next p on =>
      split at hs
      next f rest at_ => exact h.frameStep on at_ hs
      next => cases hs
    next p on =>
      cases hs
      exact h.toSched on
  | call c call =>
    simp only [Switch.step] at hs
    split at hs
    next p on =>
      obtain ⟨empty, rfl⟩ := guarded hs
      have pushed := h.push on (g := call.frame) (by rw [empty]; rfl) (by cases call <;> rfl)
        (by cases call <;> rfl)
      rwa [empty] at pushed
    next => cases hs
  | intr c chan =>
    simp only [Switch.step] at hs
    split at hs
    next p on =>
      obtain ⟨free, rfl⟩ := guarded hs
      exact h.push on free.1 rfl rfl
    next i on =>
      cases hs
      refine h.loop on rfl rfl rfl rfl rfl (fun _ => .inl rfl) (.same rfl ?_)
      unfold State.holds
      rw [setExec_cpu, on]
      rfl
    next => cases hs
  | timer c =>
    simp only [Switch.step] at hs
    split at hs
    next p on =>
      obtain ⟨free, rfl⟩ := guarded hs
      exact h.push on free.1 rfl rfl
    next => cases hs

end

end

theorem boot_state [NeZero n] (q : Fin n) :
    (boot n).state q = if q = 0 then .runnable else .unused := by
  show ((userinit n).proc q).state = _
  rw [userinit_eq, set_proc, take_proc, if_pos rfl, take_proc]
  split <;> rfl

theorem Inv.boot (n : Nat) [NeZero n] : Inv (boot n) := by
  have calls : ∀ p : Fin n, made ((Switch.boot n).stack p) = [] := fun p => by
    show made (if p = 0 then [.sched .start] else []) = []
    split <;> rfl
  refine ⟨fun c => ⟨rfl, nofun, ?_, ?_, nofun⟩, nofun, fun p hp => ?_, fun p _ hp => ?_,
    fun p hp => ?_, fun p f hf => ?_, fun p np hnp => ?_, fun p => ?_, fun p q np hnp => ?_⟩
  · rintro p (hp | hp) <;> cases hp
  · rintro p (hp | hp) <;> cases hp
  · rw [boot_state] at hp
    split at hp <;> cases hp
  · rw [boot_state] at hp
    split at hp
    next first => exact decide_eq_true first
    next => exact absurd rfl hp
  · have first : p = 0 := of_decide_eq_true hp
    show Parked (if p = 0 then [.sched .start] else [])
    rw [if_pos first, parked_cons]
    rfl
  · replace hf : f ∈ (if p = 0 then [.sched .start] else [] : List (Frame n)).tail := hf
    split at hf <;> cases hf
  · rw [calls] at hnp
    cases hnp
  · rw [calls]
    exact nodup_nil
  · rw [calls] at hnp
    cases hnp

theorem Inv.reach [NeZero n] {s : State n} (run : Reach s) : Inv s :=
  run.invariant (I := Inv) (Inv.boot n) fun _ _ _ h _ hs => h.step hs

section

variable {s : State n} {c c' : Nat} {p : Fin n}

theorem Exec.process_of_onStack (on : s.OnStack c p) : (s.cpu c).exec.process = some p := by
  rcases on with on | on <;> rw [on] <;> rfl

theorem Inv.not_onStack_toProc (h : Inv s) (on : (s.cpu c).exec = .toProc p) :
    ¬s.OnStack c' p := by
  intro stack
  have mine : (s.cpu c).proc = some p := by rw [(h.cpu c).proc, on]; rfl
  have other : (s.cpu c').proc = some p := by
    rw [(h.cpu c').proc, Exec.process_of_onStack stack]
  cases h.one c c' p mine other
  rcases stack with stack | stack <;> rw [on] at stack <;> cases stack

/-- A process that is not running, and whose lock is held in a call of another process, is on no
processor's stack. -/
theorem Inv.not_onStack_held (h : Inv s) (on : (s.cpu c).exec = .proc p) (other : p ≠ q)
    (holds : s.holds c = some q) (still : s.state q ≠ .running) : ¬s.OnStack c' q := by
  intro stack
  have mine : (s.cpu c).proc = some p := by rw [(h.cpu c).proc, on]; rfl
  refine h.absent still ((h.cpu c).lock q holds) ?_ c' ?_
  · rw [mine]
    exact fun e => other (Option.some.inj e)
  · rw [(h.cpu c').proc, Exec.process_of_onStack stack]

end

/-- In every reachable state a process is that of at most one processor, a running one of exactly
one; a processor whose process is in another state holds its lock; one that switches to a process
finds its context saved and its stack left by every processor, and so does a `wait` that has found a
zombie. -/
theorem handover [NeZero n] {s : State n} (run : Reach s) :
    (∀ c c' p, (s.cpu c).proc = some p → (s.cpu c').proc = some p → c = c') ∧
    (∀ p, s.state p = .running → ∃ c, (s.cpu c).proc = some p) ∧
    (∀ c p, (s.cpu c).proc = some p → s.state p ≠ .running → s.plock p = some c) ∧
    (∀ c p, (s.cpu c).exec = .toProc p → s.saved p = true ∧ ∀ c', ¬s.OnStack c' p) ∧
    ∀ c p addr pp rest, (s.cpu c).exec = .proc p → s.stack p = .waitLocked addr pp :: rest →
      s.state pp = .zombie → ∀ c', ¬s.OnStack c' pp := by
  have h := Inv.reach run
  refine ⟨h.one, h.running, fun c p => h.locked, fun c p on => ?_,
    fun c p addr pp rest on at_ zombie c' => ?_⟩
  · exact ⟨((h.cpu c).goes p (.inr on)).2, fun c' => h.not_onStack_toProc on⟩
  · have active := h.was_running on at_ rfl
    refine h.not_onStack_held on ?_ ?_ ?_
    · rintro rfl
      rw [active] at zombie
      cases zombie
    · rw [holds_of_stack on, at_]
      rfl
    · rw [zombie]
      nofun

/-- The first process forks, the child exits on the second processor, and the first process finds it
in `wait`. -/
def reapsChild : List (Label 2) :=
  List.replicate 5 (.next 0 true) ++ [.call 0 .fork] ++ List.replicate 7 (.next 0 true) ++
    List.replicate 7 (.next 1 true) ++ [.call 1 (.exit 0)] ++ List.replicate 13 (.next 1 true) ++
    [.call 0 (.wait false)] ++ List.replicate 3 (.next 0 true)

theorem handover_reap : ∃ s : State 2, Reach s ∧ (s.cpu 0).exec = .proc 0 ∧
    s.stack 0 = [.waitLocked false 1] ∧ s.state 1 = .zombie ∧ ∀ c, ¬s.OnStack c 1 := by
  obtain ⟨s, run, exec, stack, zombie⟩ := exists_reach step (fun _ _ => True) (boot 2) reapsChild
    (P := fun s : State 2 => (s.cpu 0).exec = .proc 0 ∧ s.stack 0 = [.waitLocked false 1] ∧
      s.state 1 = .zombie) (by decide +kernel)
  have left := (handover run).2.2.2.2 0 0 false 1 [] exec stack zombie
  exact ⟨s, run, exec, stack, zombie, left⟩

end Xv6.Switch
