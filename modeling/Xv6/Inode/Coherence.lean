import Xv6.Inode.System

/-! What holds of the inode table in every interleaving: one entry in use for each inode, and copies
that agree with the disk when nobody holds them. -/

namespace Xv6.Coherence

open Transition Function

/-- The copy in entry `i` was read after the last allocation, and agrees with the disk unless its
holder changed it. -/
structure Good (s : State) (i : Slot) : Prop where
  type : (s.table i).din.type ≠ 0
  disk : (s.dinode i).type ≠ 0
  fresh : s.read i = s.allocs (s.table i).dev (s.table i).inum
  agree : s.dirty i = false → (s.table i).din = s.dinode i

/-- What holds of a process at a place in the code. -/
def Place (s : State) (p : Pid) : Pc → Prop
  | .idle | .taken _ _ => True
  | .scanning _ type _ => type ≠ 0
  | .locking i => (p, i) ∈ s.refs
  | .loading i => (s.table i).lock = some p ∧
    (s.panicked = none → (s.table i).valid = true → Good s i)
  | .freeing .drop i => (p, i) ∈ s.refs ∧ (s.table i).lock ≠ some p
  | .freeing .unlock i => (s.table i).lock = some p ∧ (s.table i).valid = false
  | .freeing .invalidate i => (s.table i).lock = some p
  | .freeing .zeroUpdate i => (s.table i).lock = some p ∧ (s.dinode i).type ≠ 0
  | .freeing _ i => (s.table i).lock = some p ∧ (s.table i).din.type ≠ 0 ∧ (s.dinode i).type ≠ 0

/-- The process at `pc` is inside `ilock` or `iput` with the lock of entry `i`. -/
def Pc.Inside (i : Slot) : Pc → Prop
  | .loading j => j = i
  | .freeing at_ j => at_ ≠ .drop ∧ j = i
  | _ => False

structure Inv (s : State) : Prop where
  count : ∀ i, (s.table i).ref = s.refs.countP (fun r => r.2 = i)
  unique : ∀ i j, 0 < (s.table i).ref → (s.table j).Is (s.table i).dev (s.table i).inum → i = j
  place : ∀ p, Place s p (s.proc p)
  held : ∀ i p, (s.table i).lock = some p →
    (p, i) ∈ s.refs ∧ ((s.proc p).Inside i ∨ (s.table i).valid = true)
  good : ∀ i, 0 < (s.table i).ref → (s.table i).valid = true →
    (∀ p, ¬(s.proc p).Inside i) → Good s i
  clean : ∀ i, (∀ p, (s.table i).lock = some p → (s.proc p).Inside i) → s.dirty i = false

variable {s s' : State} {p : Pid} {i j : Slot} {pc : Pc} {ninodes dev inum : Nat}

theorem Place.lock (h : Place s p pc) (inside : pc.Inside i) : (s.table i).lock = some p := by
  cases pc with
  | loading j => cases inside; exact h.1
  | freeing at_ j =>
    obtain ⟨hne, rfl⟩ := inside
    cases at_ with
    | drop => exact absurd rfl hne
    | invalidate => exact h
    | _ => exact h.1
  | _ => cases inside

theorem Inv.ref_pos (h : Inv s) (mem : (p, i) ∈ s.refs) : 0 < (s.table i).ref := by
  rw [h.count]
  have : 0 < s.refs.countP (fun r => r.2 = i) :=
    List.countP_pos_iff.mpr ⟨(p, i), mem, by simp⟩
  omega

theorem Inv.inside (h : Inv s) (hl : (s.table i).lock = some p)
    (inside : (s.proc q).Inside i) : q = p := by
  have := (h.place q).lock inside
  exact (Option.some.inj (hl.symm.trans this)).symm

theorem Inv.not_inside (h : Inv s) (hl : (s.table i).lock = none) (q : Pid) :
    ¬(s.proc q).Inside i := fun inside => by
  have := (h.place q).lock inside
  rw [hl] at this
  cases this

theorem not_inside_idle (idle : s.proc p = .idle) (j : Slot) : ¬(s.proc p).Inside j := by
  rw [idle]; exact id

/-- A process that is outside, before and after it moves, changes nothing about who is inside. -/
theorem inside_iff (proc : s'.proc = update s.proc p pc)
    (out : ¬(s.proc p).Inside i ∧ ¬pc.Inside i) (q : Pid) :
    (s'.proc q).Inside i ↔ (s.proc q).Inside i := by
  rw [proc]
  by_cases eq : q = p
  · rw [eq, update_self]
    exact iff_of_false out.2 out.1
  · rw [update_of_ne eq]

/-- A step left entry `j` as it was, its reference count apart. -/
structure Same (s s' : State) (j : Slot) : Prop where
  entry : s'.table j = { s.table j with ref := (s'.table j).ref }
  dinode : s'.dinode j = s.dinode j
  allocs : s'.allocs (s.table j).dev (s.table j).inum = s.allocs (s.table j).dev (s.table j).inum
  read : s'.read j = s.read j
  dirty : s'.dirty j = s.dirty j

theorem Same.good (h : Same s s' i) (good : Good s i) : Good s' i := by
  have din : (s'.table i).din = (s.table i).din := by rw [h.entry]
  have dev : (s'.table i).dev = (s.table i).dev := by rw [h.entry]
  have inum : (s'.table i).inum = (s.table i).inum := by rw [h.entry]
  refine ⟨by rw [din]; exact good.type, by rw [h.dinode]; exact good.disk, ?_, fun hd => ?_⟩
  · rw [h.read, dev, inum, h.allocs]; exact good.fresh
  · rw [din, h.dinode]; exact good.agree (h.dirty ▸ hd)

theorem Same.place (same : ∀ j, pc.Inside j → Same s s' j)
    (refs : ∀ j, (p, j) ∈ s.refs → (p, j) ∈ s'.refs)
    (locks : ∀ j, (s'.table j).lock = some p → (s.table j).lock = some p)
    (alive : s'.panicked = none → s.panicked = none) (h : Place s p pc) : Place s' p pc := by
  cases pc with
  | idle => trivial
  | taken dev inum => trivial
  | scanning dev type inum => exact h
  | locking j => exact refs j h
  | loading j =>
    have e := same j rfl
    refine ⟨by rw [e.entry]; exact h.1, fun ha hv => e.good (h.2 (alive ha) ?_)⟩
    rwa [e.entry] at hv
  | freeing at_ j =>
    cases at_ with
    | drop => exact ⟨refs j h.1, fun hl => h.2 (locks j hl)⟩
    | invalidate =>
      have e := same j ⟨by decide, rfl⟩
      show (s'.table j).lock = some p
      rwa [e.entry]
    | unlock =>
      have e := same j ⟨by decide, rfl⟩
      show (s'.table j).lock = some p ∧ (s'.table j).valid = false
      rwa [e.entry]
    | zeroUpdate =>
      have e := same j ⟨by decide, rfl⟩
      show (s'.table j).lock = some p ∧ (s'.dinode j).type ≠ 0
      rwa [e.entry, e.dinode]
    | trunc | truncUpdate | zero =>
      have e := same j ⟨by decide, rfl⟩
      show (s'.table j).lock = some p ∧ (s'.table j).din.type ≠ 0 ∧ (s'.dinode j).type ≠ 0
      rwa [e.entry, e.dinode]

/-- A step of process `p` to `pc` that leaves the entries other than `i` alone, as far as they are
in use. -/
structure Local (s s' : State) (p : Pid) (pc : Pc) (i : Slot) : Prop where
  table : ∀ j, j ≠ i → s'.table j = s.table j
  ghost : ∀ j, j ≠ i → s'.read j = s.read j ∧ s'.dirty j = s.dirty j
  dinode : ∀ j, j ≠ i → 0 < (s.table j).ref → s'.dinode j = s.dinode j ∧
    s'.allocs (s.table j).dev (s.table j).inum = s.allocs (s.table j).dev (s.table j).inum
  proc : s'.proc = update s.proc p pc
  refs : ∀ q j, (q, j) ≠ (p, i) → ((q, j) ∈ s'.refs ↔ (q, j) ∈ s.refs)
  counts : ∀ j, j ≠ i → s'.refs.countP (fun r => r.2 = j) = s.refs.countP (fun r => r.2 = j)
  moved : ∀ j, j ≠ i → ¬(s.proc p).Inside j ∧ ¬pc.Inside j
  locks : ∀ q, q ≠ p → (s'.table i).lock = some q → (s.table i).lock = some q
  alive : s'.panicked = none → s.panicked = none

theorem Local.same (l : Local s s' p pc i) (hj : j ≠ i) (hr : 0 < (s.table j).ref) : Same s s' j :=
  ⟨by rw [l.table j hj], (l.dinode j hj hr).1, (l.dinode j hj hr).2, (l.ghost j hj).1,
    (l.ghost j hj).2⟩

/-- The invariant after a local step: what is left to show concerns the process and the entry. -/
theorem Local.inv (l : Local s s' p pc i) (h : Inv s)
    (mine : ∀ q, q ≠ p → (s.proc q).Inside i → Place s' q (s.proc q))
    (count : (s'.table i).ref = s'.refs.countP (fun r => r.2 = i))
    (unique : ∀ j, j ≠ i → 0 < (s'.table i).ref →
      ¬(s.table j).Is (s'.table i).dev (s'.table i).inum)
    (place : Place s' p pc)
    (held : ∀ q, (s'.table i).lock = some q →
      (q, i) ∈ s'.refs ∧ ((s'.proc q).Inside i ∨ (s'.table i).valid = true))
    (good : 0 < (s'.table i).ref → (s'.table i).valid = true → (∀ q, ¬(s'.proc q).Inside i) →
      Good s' i)
    (clean : (∀ q, (s'.table i).lock = some q → (s'.proc q).Inside i) → s'.dirty i = false) :
    Inv s' := by
  refine ⟨fun j => ?_, fun j k hj hk => ?_, fun q => ?_, fun j q hl => ?_, fun j hr hv hin => ?_,
    fun j hl => ?_⟩
  · by_cases e : j = i
    · subst e; exact count
    · rw [l.table j e, l.counts j e]; exact h.count j
  · by_cases ej : j = i
    · subst ej
      by_contra ek
      rw [l.table k (Ne.symm ek)] at hk
      exact unique k (Ne.symm ek) hj hk
    · rw [l.table j ej] at hj hk
      by_cases ek : k = i
      · subst ek
        exact absurd ⟨hj, hk.2.1.symm, hk.2.2.symm⟩ (unique j ej hk.1)
      · rw [l.table k ek] at hk
        exact h.unique j k hj hk
  · rw [l.proc]
    by_cases e : q = p
    · subst e; simpa using place
    · rw [update_of_ne e]
      by_cases hi : (s.proc q).Inside i
      · exact mine q e hi
      · refine Same.place (fun j hj => ?_) (fun j hm => ?_) (fun j hl => ?_) l.alive (h.place q)
        · refine l.same (fun ej => hi (ej ▸ hj)) (h.ref_pos (h.held j q ?_).1)
          exact (h.place q).lock hj
        · exact (l.refs q j (by simp [e])).mpr hm
        · by_cases ej : j = i
          · subst ej; exact l.locks q e hl
          · rwa [l.table j ej] at hl
  · by_cases e : j = i
    · subst e; exact held q hl
    · rw [l.table j e] at hl
      obtain ⟨hm, hin⟩ := h.held j q hl
      refine ⟨(l.refs q j (by simp [e])).mpr hm, ?_⟩
      rwa [l.table j e, inside_iff l.proc (l.moved j e)]
  · by_cases e : j = i
    · subst e; exact good hr hv hin
    · rw [l.table j e] at hr hv
      simp only [inside_iff l.proc (l.moved j e)] at hin
      exact (l.same e hr).good (h.good j hr hv hin)
  · by_cases e : j = i
    · subst e; exact clean hl
    · simp only [l.table j e, inside_iff l.proc (l.moved j e)] at hl
      rw [(l.ghost j e).2]
      exact h.clean j hl

/-- A local step that changes only the reference count of entry `i`, by a process outside of calls
with a lock. -/
theorem Local.inv_ref (l : Local s s' p pc i) (h : Inv s)
    (same : Same s s' i) (before : ¬(s.proc p).Inside i) (after : ¬pc.Inside i)
    (count : (s'.table i).ref = s'.refs.countP (fun r => r.2 = i))
    (used : 0 < (s'.table i).ref → 0 < (s.table i).ref)
    (mem : (s.table i).lock = some p → (p, i) ∈ s'.refs)
    (place : Place s' p pc) : Inv s' := by
  have lock : (s'.table i).lock = (s.table i).lock := by rw [same.entry]
  have valid : (s'.table i).valid = (s.table i).valid := by rw [same.entry]
  have mem' : ∀ q, q ≠ p → ∀ j, (q, j) ∈ s.refs → (q, j) ∈ s'.refs := fun q hq j hm =>
    (l.refs q j (by simp [hq])).mpr hm
  have inside := inside_iff l.proc ⟨before, after⟩
  refine l.inv h (fun q hq hin => ?_) count (fun j hj hr hk => ?_) place
    (fun q hl => ?_) (fun hr hv hin => ?_) (fun hl => ?_)
  · refine Same.place (fun j hj => ?_) (mem' q hq) (fun j hl => ?_) l.alive (h.place q)
    · by_cases e : j = i
      · subst e; exact same
      · exact l.same e (h.ref_pos (h.held j q ((h.place q).lock hj)).1)
    · by_cases e : j = i
      · subst e; exact lock ▸ hl
      · rwa [l.table j e] at hl
  · rw [same.entry] at hk
    exact hj (h.unique i j (used hr) hk).symm
  · rw [lock] at hl
    obtain ⟨hm, hin⟩ := h.held i q hl
    rw [valid, inside]
    by_cases eq : q = p
    · subst eq
      exact ⟨mem hl, hin⟩
    · exact ⟨mem' q eq i hm, hin⟩
  · simp only [inside] at hin
    exact same.good (h.good i (used hr) (valid ▸ hv) hin)
  · simp only [lock, inside] at hl
    rw [same.dirty]
    exact h.clean i hl

attribute [simp] State.setProc State.setEntry State.drop

theorem setDisk_of_not_is (s : State) (d : Dinode) (hr : 0 < (s.table j).ref)
    (hj : ¬(s.table j).Is dev inum) : (s.setDisk dev inum d).dinode j = s.dinode j := by
  simp only [State.setDisk, State.dinode]
  by_cases hd : (s.table j).dev = dev
  · subst hd
    rw [update_self, update_of_ne]
    exact fun hi => hj ⟨hr, rfl, hi⟩
  · rw [update_of_ne hd]

theorem Inv.setDisk_other (h : Inv s) (hi : 0 < (s.table i).ref) (d : Dinode) (hj : j ≠ i)
    (hr : 0 < (s.table j).ref) :
    (s.setDisk (s.table i).dev (s.table i).inum d).dinode j = s.dinode j :=
  setDisk_of_not_is s d hr fun is => hj (h.unique i j hi is).symm

theorem Inv.setProc (h : Inv s) (before : ∀ i, ¬(s.proc p).Inside i)
    (after : ∀ i, ¬pc.Inside i) (place : Place (s.setProc p pc) p pc) : Inv (s.setProc p pc) := by
  have l : Local s (s.setProc p pc) p pc 0 :=
    { table := fun _ _ => rfl, ghost := fun _ _ => ⟨rfl, rfl⟩, dinode := fun _ _ _ => ⟨rfl, rfl⟩,
      proc := rfl, refs := fun _ _ _ => .rfl, counts := fun _ _ => rfl,
      moved := fun j _ => ⟨before j, after j⟩, locks := fun _ _ hl => hl, alive := id }
  exact l.inv_ref h ⟨rfl, rfl, rfl, rfl, rfl⟩ (before 0) (after 0) (h.count 0) id
    (fun hl => (h.held 0 p hl).1) place

/-- Process `p` moves to `pc` and leaves `ip` in entry `i` and `d` on the disk for it. -/
@[simp] def State.write (s : State) (p : Pid) (pc : Pc) (i : Slot) (ip : Inode) (d : Dinode) (dirty : Bool)
    (read : Nat) : State where
  table := update s.table i ip
  disk := (s.setDisk (s.table i).dev (s.table i).inum d).disk
  proc := update s.proc p pc
  panicked := s.panicked
  refs := s.refs
  dirty := update s.dirty i dirty
  allocs := s.allocs
  read := update s.read i read

@[simp] theorem setDisk_dinode (s : State) : s.setDisk (s.table i).dev (s.table i).inum (s.dinode i) = s := by
  simp [State.setDisk, State.dinode]

variable {ip : Inode} {d : Dinode} {dirty : Bool} {read : Nat} {refs : List (Pid × Slot)}
  {type : Int16}

@[simp] theorem write_self : ((s.write p pc i ip d dirty read).table i) = ip :=
  update_self ..

theorem write_dinode (key : ip.dev = (s.table i).dev ∧ ip.inum = (s.table i).inum) :
    (s.write p pc i ip d dirty read).dinode i = d := by
  simp [State.dinode, State.setDisk, key]

theorem good_write (key : ip.dev = (s.table i).dev ∧ ip.inum = (s.table i).inum)
    (type : ip.din.type ≠ 0) (disk : d.type ≠ 0)
    (fresh : read = s.allocs (s.table i).dev (s.table i).inum)
    (agree : dirty = false → ip.din = d) : Good (s.write p pc i ip d dirty read) i := by
  refine ⟨?_, ?_, ?_, fun hd => ?_⟩
  · rwa [write_self]
  · rwa [write_dinode key]
  · rw [write_self, key.1, key.2]; simpa using fresh
  · rw [write_self, write_dinode key]; exact agree (by simpa using hd)

section

variable (h : Inv s)

include h

/-- A step of who holds or takes the lock of entry `i`, which changes the entry and its disk inode.
-/
theorem Inv.write (mem : (p, i) ∈ s.refs) (own : ∀ q, (s.table i).lock = some q → q = p)
    (key : ip.dev = (s.table i).dev ∧ ip.inum = (s.table i).inum) (ref : ip.ref = (s.table i).ref)
    (lock : ∀ q, ip.lock = some q → q = p ∧ (pc.Inside i ∨ ip.valid = true))
    (moved : ∀ j, j ≠ i → ¬(s.proc p).Inside j ∧ ¬pc.Inside j)
    (place : Place (s.write p pc i ip d dirty read) p pc)
    (good : ip.valid = true → ¬pc.Inside i → Good (s.write p pc i ip d dirty read) i)
    (clean : ip.lock = none ∨ pc.Inside i → dirty = false) :
    Inv (s.write p pc i ip d dirty read) := by
  have pos := h.ref_pos mem
  refine Local.inv (i := i) (s := s) (p := p)
    { table := fun j hj => update_of_ne hj .., ghost := fun j hj => ?_,
      dinode := fun j hj hr => ⟨?_, rfl⟩, proc := rfl, refs := fun _ _ _ => .rfl,
      counts := fun _ _ => rfl, moved := moved, locks := fun q hq hl => ?_,
      alive := id }
    h (fun q hq hin => ?_) ?_ (fun j hj hr hk => ?_) place (fun q hl => ?_)
    (fun hr hv hin => ?_) (fun hl => ?_)
  · exact ⟨update_of_ne hj .., update_of_ne hj ..⟩
  · rw [← h.setDisk_other pos d hj hr]
    simp only [State.dinode, State.write, State.setDisk, update_of_ne hj]
  · rw [write_self] at hl
    exact absurd (lock q hl).1 hq
  · exact absurd (own q ((h.place q).lock hin)) hq
  · rw [write_self, ref]; exact h.count i
  · rw [write_self, key.1, key.2] at hk
    exact hj (h.unique i j pos hk).symm
  · rw [write_self] at hl ⊢
    obtain ⟨rfl, hin⟩ := lock q hl
    refine ⟨mem, hin.imp_left fun hin => ?_⟩
    simpa using hin
  · refine good (by simpa using hv) fun hp => hin p ?_
    simpa using hp
  · have : ip.lock = none ∨ pc.Inside i := by
      cases e : ip.lock with
      | none => exact .inl rfl
      | some q =>
        obtain ⟨rfl, -⟩ := lock q e
        exact .inr (by simpa using hl q (by rwa [write_self]))
    simpa using clean this

theorem Inv.panic (why : Panic) : Inv (s.panic why) := by
  refine ⟨h.count, h.unique, fun p => ?_, h.held, fun i hr hv hin => ?_, h.clean⟩
  · refine Same.place (fun j _ => ⟨rfl, rfl, rfl, rfl, rfl⟩) (fun _ => id) (fun _ => id)
      (fun alive => ?_) (h.place p)
    cases alive
  · have := h.good i hr hv hin
    exact ⟨this.type, this.disk, this.fresh, this.agree⟩

theorem Inv.holder (idle : s.proc p = .idle) (hl : (s.table i).lock = some p) :
    (p, i) ∈ s.refs ∧ (s.table i).valid = true ∧ Good s i := by
  have outside : ∀ q, ¬(s.proc q).Inside i := fun q hq => by
    have := h.inside hl hq
    rwa [this, idle] at hq
  obtain ⟨mem, hv⟩ := h.held i p hl
  have valid := hv.resolve_left (outside p)
  exact ⟨mem, valid, h.good i (h.ref_pos mem) valid outside⟩

theorem Inv.free (mem : (p, i) ∈ s.refs) (hl : (s.table i).lock = none)
    (valid : (s.table i).valid = true) : Good s i :=
  h.good i (h.ref_pos mem) valid (h.not_inside hl)

theorem Inv.holder_write (hl : (s.table i).lock = some p)
    (before : ∀ j, (s.proc p).Inside j → j = i) (after : ∀ j, pc.Inside j → j = i)
    (key : ip.dev = (s.table i).dev ∧ ip.inum = (s.table i).inum) (ref : ip.ref = (s.table i).ref)
    (lock : ip.lock = some p ∧ (pc.Inside i ∨ ip.valid = true) ∨ ip.lock = none)
    (place : Place (s.write p pc i ip d dirty read) p pc)
    (good : ip.valid = true → ¬pc.Inside i → Good (s.write p pc i ip d dirty read) i)
    (clean : ip.lock = none ∨ pc.Inside i → dirty = false) :
    Inv (s.write p pc i ip d dirty read) := by
  refine h.write (h.held i p hl).1 (fun q hq => Option.some.inj (hq.symm.trans hl)) key ref
    (fun q hq => ?_) (fun j hj => ⟨mt (before j) hj, mt (after j) hj⟩) place good clean
  rcases lock with ⟨hp, hin⟩ | hn
  · exact ⟨Option.some.inj (hq.symm.trans hp), hin⟩
  · rw [hn] at hq; cases hq

/-- The holder of entry `i` is outside of calls after the step. -/
theorem Inv.leave (hl : (s.table i).lock = some p) (before : ∀ j, (s.proc p).Inside j → j = i)
    (ip : Inode) (d : Dinode) (dirty : Bool) (eq : s' = s.write p .idle i ip d dirty read)
    (key : ip.dev = (s.table i).dev ∧ ip.inum = (s.table i).inum) (ref : ip.ref = (s.table i).ref)
    (lock : ip.lock = some p ∧ ip.valid = true ∨ ip.lock = none) (type : ip.din.type ≠ 0)
    (disk : d.type ≠ 0) (fresh : read = s.allocs (s.table i).dev (s.table i).inum)
    (agree : dirty = false → ip.din = d) (clean : ip.lock = none → dirty = false) : Inv s' := by
  rw [eq]
  exact h.holder_write hl before (fun _ => False.elim) key ref (lock.imp_left (.imp_right .inr))
    trivial (fun _ _ => good_write key type disk fresh agree) fun free => free.elim clean False.elim

theorem Inv.modify (idle : s.proc p = .idle) (hl : (s.table i).lock = some p) (hd : d.type ≠ 0) :
    Inv { s.setEntry i { s.table i with din := d } with
      dirty := update s.dirty i true } := by
  obtain ⟨mem, valid, good⟩ := h.holder idle hl
  refine h.leave hl (fun j hj => (not_inside_idle idle j hj).elim) { s.table i with din := d }
    (s.dinode i) true (by simp [← idle]) ⟨rfl, rfl⟩ rfl (.inl ⟨hl, valid⟩) hd good.disk good.fresh
    (by simp) fun free => ?_
  rw [hl] at free
  cases free

theorem Inv.iupdate (idle : s.proc p = .idle) (hl : (s.table i).lock = some p) :
    Inv { s.setDisk (s.table i).dev (s.table i).inum (s.table i).din with
      dirty := update s.dirty i false } := by
  obtain ⟨mem, valid, good⟩ := h.holder idle hl
  exact h.leave hl (fun j hj => (not_inside_idle idle j hj).elim) (s.table i) (s.table i).din false
    (by simp [State.setDisk, ← idle]) ⟨rfl, rfl⟩ rfl (.inl ⟨hl, valid⟩) good.type good.type
    good.fresh (fun _ => rfl) fun _ => rfl

theorem Inv.iunlock (idle : s.proc p = .idle) (hl : (s.table i).lock = some p)
    (hd : s.dirty i = false) : Inv (s.setEntry i { s.table i with lock := none }) := by
  obtain ⟨mem, valid, good⟩ := h.holder idle hl
  exact h.leave hl (fun j hj => (not_inside_idle idle j hj).elim) { s.table i with lock := none }
    (s.dinode i) (s.dirty i) (by simp [← idle]) ⟨rfl, rfl⟩ rfl (.inr rfl) good.type good.disk
    good.fresh good.agree fun _ => hd

theorem Inv.acquire (mem : (p, i) ∈ s.refs) (hl : (s.table i).lock = none)
    (before : ∀ j, ¬(s.proc p).Inside j) (inside : ∀ j, pc.Inside j ↔ j = i)
    (place : Place (s.write p pc i { s.table i with lock := some p } (s.dinode i) (s.dirty i)
      (s.read i)) p pc) :
    Inv ((s.setEntry i { s.table i with lock := some p }).setProc p pc) := by
  have e : (s.setEntry i { s.table i with lock := some p }).setProc p pc =
      s.write p pc i { s.table i with lock := some p } (s.dinode i) (s.dirty i) (s.read i) := by
    simp
  rw [e]
  refine h.write mem (fun q hq => ?_) ⟨rfl, rfl⟩ rfl (fun q hq => ?_) (fun j hj => ?_) place
    (fun _ hin => absurd ((inside i).mpr rfl) hin) (fun _ => ?_)
  · rw [hl] at hq; cases hq
  · exact ⟨(Option.some.inj hq).symm, .inl ((inside i).mpr rfl)⟩
  · exact ⟨before j, fun hin => hj ((inside j).mp hin)⟩
  · refine h.clean i fun q hq => ?_
    rw [hl] at hq; cases hq

theorem Inv.ilock_acquire (hp : s.proc p = .locking i) (hl : (s.table i).lock = none) :
    Inv ((s.setEntry i { s.table i with lock := some p }).setProc p (.loading i)) := by
  have mem : (p, i) ∈ s.refs := by
    have := h.place p
    rwa [hp] at this
  refine h.acquire mem hl (fun j => by rw [hp]; exact id) (fun j => eq_comm) ⟨?_, fun _ hv => ?_⟩
  · rw [write_self]
  · have good := h.free mem hl (by simpa using hv)
    exact good_write ⟨rfl, rfl⟩ good.type good.disk good.fresh good.agree

theorem Inv.iput_acquire (idle : s.proc p = .idle) (mem : (p, i) ∈ s.refs)
    (hl : (s.table i).lock = none) (valid : (s.table i).valid = true) :
    Inv ((s.setEntry i { s.table i with lock := some p }).setProc p (.freeing .trunc i)) := by
  have good := h.free mem hl valid
  refine h.acquire mem hl (fun j => by rw [idle]; exact id)
    (fun j => ⟨fun hj => hj.2.symm, fun hj => ⟨by decide, hj.symm⟩⟩) ⟨?_, ?_, ?_⟩
  · rw [write_self]
  · rw [write_self]; exact good.type
  · rw [write_dinode]
    · exact good.disk
    · exact ⟨rfl, rfl⟩

theorem Inv.load (alive : s.panicked = none) (hp : s.proc p = .loading i) :
    Inv (load s p i) := by
  have place := h.place p
  rw [hp] at place
  obtain ⟨hl, hgood⟩ := place
  have before : ∀ j, (s.proc p).Inside j → j = i := by rw [hp]; exact fun j => Eq.symm
  have clean : s.dirty i = false := h.clean i fun q hq => by
    obtain rfl := Option.some.inj (hq.symm.trans hl)
    rw [hp]; rfl
  unfold Coherence.load
  split
  · rename_i valid
    have good := hgood alive valid
    exact h.leave hl before (s.table i) (s.dinode i) (s.dirty i) (by simp) ⟨rfl, rfl⟩ rfl
      (.inl ⟨hl, valid⟩) good.type good.disk good.fresh good.agree fun _ => clean
  · set ip : Inode := { s.table i with din := s.dinode i, valid := true }
    set r := s.allocs (s.table i).dev (s.table i).inum
    split
    · have e : ({ (s.setEntry i ip) with
          read := update s.read i r
          dirty := update s.dirty i false } : State).panic .noType =
          (s.panic .noType).write p (.loading i) i ip (s.dinode i) false r := by
        simp [State.panic, ← hp]
        simp [State.setDisk, State.dinode]
      rw [e]
      refine (h.panic .noType).holder_write hl before (fun j => Eq.symm) ⟨rfl, rfl⟩ rfl
        (.inl ⟨hl, .inl rfl⟩) ⟨?_, fun ha => ?_⟩ (fun _ hin => absurd rfl hin) (fun _ => rfl)
      · rwa [write_self]
      · cases ha
    · rename_i type
      exact h.leave hl before ip (s.dinode i) false (by simp [r]) ⟨rfl, rfl⟩ rfl (.inl ⟨hl, rfl⟩)
        type type rfl (fun _ => rfl) fun _ => rfl

theorem Inv.freeStep (hp : s.proc p = .freeing at_ i) (hne : at_ ≠ .drop) :
    Inv (freeStep s p i at_) := by
  have place := h.place p
  have hl : (s.table i).lock = some p := place.lock (by rw [hp]; exact ⟨hne, rfl⟩)
  have before : ∀ j, (s.proc p).Inside j → j = i := by rw [hp]; exact fun j hj => hj.2.symm
  have clean : s.dirty i = false := h.clean i fun q hq => by
    obtain rfl := Option.some.inj (hq.symm.trans hl)
    rw [hp]; exact ⟨hne, rfl⟩
  have after : ∀ (at' : FreePc) j, (Pc.freeing at' i).Inside j → j = i := fun _ j hj => hj.2.symm
  -- a step to a place that is still inside
  have within : ∀ {t : State} (at' : FreePc) (ip : Inode) (d : Dinode),
      t = s.write p (.freeing at' i) i ip d (s.dirty i) (s.read i) → at' ≠ .drop →
      ip.dev = (s.table i).dev ∧ ip.inum = (s.table i).inum → ip.ref = (s.table i).ref →
      ip.lock = some p → (t.table i = ip → t.dinode i = d → Place t p (.freeing at' i)) → Inv t := by
    rintro _ at' ip d rfl hne key ref lock place
    exact h.holder_write hl before (after _) key ref (.inl ⟨lock, .inl ⟨hne, rfl⟩⟩)
      (place write_self (write_dinode key)) (fun _ hin => absurd ⟨hne, rfl⟩ hin) fun _ => clean
  rw [hp] at place
  cases at_ with
  | drop => exact absurd rfl hne
  | trunc =>
    refine within .truncUpdate { s.table i with
      din := { (s.table i).din with size := 0, addrs := fun _ => 0 } } (s.dinode i)
      (by simp [Coherence.freeStep]) (by decide) ⟨rfl, rfl⟩ rfl hl fun table dinode => ⟨?_, ?_, ?_⟩
    · rwa [table]
    · rw [table]; exact place.2.1
    · rw [dinode]; exact place.2.2
  | truncUpdate =>
    refine within .zero (s.table i) (s.table i).din (by simp [Coherence.freeStep, State.setDisk])
      (by decide) ⟨rfl, rfl⟩ rfl hl fun table dinode => ⟨?_, ?_, ?_⟩
    · rwa [table]
    · rw [table]; exact place.2.1
    · rw [dinode]; exact place.2.1
  | zero =>
    refine within .zeroUpdate { s.table i with din := { (s.table i).din with type := 0 } }
      (s.dinode i) (by simp [Coherence.freeStep]) (by decide) ⟨rfl, rfl⟩ rfl hl
      fun table dinode => ⟨?_, ?_⟩
    · rwa [table]
    · rw [dinode]; exact place.2.2
  | zeroUpdate =>
    exact within .invalidate (s.table i) (s.table i).din
      (by simp [Coherence.freeStep, State.setDisk]) (by decide) ⟨rfl, rfl⟩ rfl hl fun table _ =>
      (congrArg Inode.lock table).trans hl
  | invalidate =>
    refine within .unlock { s.table i with valid := false } (s.dinode i)
      (by simp [Coherence.freeStep]) (by decide) ⟨rfl, rfl⟩ rfl hl fun table _ => ⟨?_, ?_⟩
    · rwa [table]
    · rw [table]
  | unlock =>
    have e : Coherence.freeStep s p i .unlock =
        s.write p (.freeing .drop i) i { s.table i with lock := none } (s.dinode i) (s.dirty i)
          (s.read i) := by
      simp [Coherence.freeStep]
    rw [e]
    refine h.holder_write hl before (after _) ⟨rfl, rfl⟩ rfl (.inr rfl) ⟨(h.held i p hl).1, ?_⟩
      (fun hv _ => ?_) (fun _ => clean)
    · rw [write_self]; exact fun hn => by cases hn
    · rw [place.2] at hv; cases hv

end

theorem countP_cons_ne (hj : j ≠ i) :
    ((p, i) :: refs).countP (fun r => r.2 = j) = refs.countP (fun r => r.2 = j) := by
  rw [List.countP_cons_of_neg]
  simpa using Ne.symm hj

theorem countP_erase (mem : (p, i) ∈ refs) (j : Slot) :
    refs.countP (fun r => r.2 = j) =
      (refs.erase (p, i)).countP (fun r => r.2 = j) + if i = j then 1 else 0 := by
  have := (List.perm_cons_erase mem).countP_eq (fun r => decide (r.2 = j))
  rw [this, List.countP_cons]
  simp

theorem Inv.addRef (h : Inv s) (before : ∀ j, ¬(s.proc p).Inside j) (used : 0 < (s.table i).ref) :
    Inv { s.setProc p .idle with
      table := update s.table i { s.table i with ref := (s.table i).ref + 1 }
      refs := (p, i) :: s.refs } := by
  refine Local.inv_ref (i := i) (s := s) (p := p)
    { table := fun j hj => update_of_ne hj .., ghost := fun _ _ => ⟨rfl, rfl⟩,
      dinode := fun j hj _ => ⟨?_, rfl⟩, proc := rfl, refs := fun q j hne => ?_,
      counts := fun j hj => countP_cons_ne hj, moved := fun j _ => ⟨before j, id⟩,
      locks := fun q _ hl => ?_, alive := id }
    h ⟨?_, ?_, rfl, rfl, rfl⟩ (before i) id ?_ (fun _ => used) (fun _ => List.mem_cons_self) trivial
  · simp [State.dinode, update_of_ne hj]
  · simp only [List.mem_cons, or_iff_right_iff_imp]
    exact fun e => absurd e hne
  · simpa using hl
  · simp
  · simp [State.dinode]
  · simp [h.count i]

theorem Inv.drop (h : Inv s) (mem : (p, i) ∈ s.refs) (before : ∀ j, ¬(s.proc p).Inside j)
    (hl : (s.table i).lock ≠ some p) : Inv (s.drop p i) := by
  have count := countP_erase mem
  refine Local.inv_ref (i := i) (s := s) (p := p)
    { table := fun j hj => update_of_ne hj .., ghost := fun _ _ => ⟨rfl, rfl⟩,
      dinode := fun j hj _ => ⟨?_, rfl⟩, proc := rfl, refs := fun q j hne => ?_,
      counts := fun j hj => ?_, moved := fun j _ => ⟨before j, id⟩,
      locks := fun q _ hl => ?_, alive := id }
    h ⟨?_, ?_, rfl, rfl, rfl⟩ (before i) id ?_ (fun _ => h.ref_pos mem)
    (fun hn => absurd hn hl) trivial
  · simp [State.dinode, update_of_ne hj]
  · exact List.mem_erase_of_ne hne
  · have := count j
    rw [if_neg (Ne.symm hj)] at this
    exact this.symm
  · simpa using hl
  · simp
  · simp [State.dinode]
  · have hi := h.count i
    have := count i
    rw [if_pos rfl] at this
    simp only [State.drop, State.setProc, State.setEntry, update_self]
    omega

theorem Inv.recycle (h : Inv s) (before : ∀ j, ¬(s.proc p).Inside j)
    (miss : ∀ j, ¬(s.table j).Is dev inum) (unused : (s.table i).ref = 0) :
    Inv { s.setProc p .idle with
      table := update s.table i
        { s.table i with dev := dev, inum := inum, ref := 1, valid := false }
      refs := (p, i) :: s.refs } := by
  have unlocked : ∀ q, (s.table i).lock ≠ some q := fun q hq => by
    have := h.ref_pos (h.held i q hq).1
    omega
  refine Local.inv (i := i) (s := s) (p := p)
    { table := fun j hj => update_of_ne hj .., ghost := fun _ _ => ⟨rfl, rfl⟩,
      dinode := fun j hj _ => ⟨?_, rfl⟩, proc := rfl, refs := fun q j hne => ?_,
      counts := fun j hj => countP_cons_ne hj, moved := fun j _ => ⟨before j, id⟩,
      locks := fun q _ hl => ?_, alive := id }
    h (fun q _ hin => absurd ((h.place q).lock hin) (unlocked q)) ?_ (fun j _ _ => ?_) trivial
    (fun q hl => ?_) (fun _ hv => ?_) (fun _ => h.clean i fun q hq => absurd hq (unlocked q))
  · simp [State.dinode, update_of_ne hj]
  · simp only [List.mem_cons, or_iff_right_iff_imp]
    exact fun e => absurd e hne
  · simpa using hl
  · have := h.count i
    rw [unused] at this
    simp only [update_self, List.countP_cons, decide_true, if_true]
    omega
  · simpa using miss j
  · exact absurd (by simpa using hl) (unlocked q)
  · simp at hv

theorem Inv.iget (h : Inv s) (before : ∀ j, ¬(s.proc p).Inside j) (dev inum : Nat) :
    Inv (s.iget p dev inum .idle) := by
  unfold State.iget
  split
  · exact h.panic .iget
  · rename_i i table e
    rcases iget_cases e with ⟨is, rfl⟩ | ⟨miss, unused, rfl⟩
    · exact h.addRef before is.1
    · exact h.recycle before miss unused

def State.take (s : State) (p : Pid) (dev inum : Nat) (type : Int16) : State :=
  { (s.setDisk dev inum { Dinode.zero with type := type }).setProc p (.taken dev inum) with
    allocs := update s.allocs dev
      (update (s.allocs dev) inum (s.allocs dev inum + 1)) }

theorem take_other (hr : 0 < (s.table j).ref)
    (hj : ¬(s.table j).Is dev inum) : Same s (s.take p dev inum type) j := by
  refine ⟨rfl, setDisk_of_not_is s _ hr hj, ?_, rfl, rfl⟩
  simp only [State.take]
  by_cases hd : (s.table j).dev = dev
  · subst hd
    rw [update_self, update_of_ne]
    exact fun hi => hj ⟨hr, rfl, hi⟩
  · rw [update_of_ne hd]

theorem Inv.take (h : Inv s) (alive : s.panicked = none) (before : ∀ j, ¬(s.proc p).Inside j)
    (hfree : (s.disk dev inum).type = 0) : Inv (s.take p dev inum type) := by
  -- a process inside a call with the entry for the inode relies on neither copy of it
  have placed : ∀ q i, (s.proc q).Inside i → (s.table i).Is dev inum →
      Place (s.take p dev inum type) q (s.proc q) := by
    intro q i hin is
    have free : (s.dinode i).type = 0 := by rwa [State.dinode, is.2.1, is.2.2]
    have place := h.place q
    cases hpc : s.proc q with
    | loading j =>
      rw [hpc] at hin place
      obtain rfl : j = i := hin
      exact ⟨place.1, fun _ hv => absurd free (place.2 alive hv).disk⟩
    | freeing at_ j =>
      rw [hpc] at hin place
      obtain ⟨hne, rfl⟩ := hin
      cases at_ with
      | drop => exact absurd rfl hne
      | invalidate => exact place
      | unlock => exact place
      | zeroUpdate => exact absurd free place.2
      | trunc | truncUpdate | zero => exact absurd free place.2.2
    | idle | locking _ | scanning _ _ _ | taken _ _ => rw [hpc] at hin; cases hin
  have inside : ∀ i q, ((s.take p dev inum type).proc q).Inside i ↔ (s.proc q).Inside i :=
    fun i => inside_iff rfl ⟨before i, id⟩
  refine ⟨h.count, h.unique, fun q => ?_, fun i q hl => ?_, fun i hr hv hin => ?_, fun i hl => ?_⟩
  · show Place _ q (update s.proc p _ q)
    by_cases hq : q = p
    · rw [hq, update_self]; trivial
    · rw [update_of_ne hq]
      by_cases hin : ∃ i, (s.proc q).Inside i ∧ (s.table i).Is dev inum
      · obtain ⟨i, hin, is⟩ := hin
        exact placed q i hin is
      · refine Same.place (fun j hj => take_other ?_ fun is => hin ⟨j, hj, is⟩) (fun _ => id)
          (fun _ => id) id (h.place q)
        exact h.ref_pos (h.held j q ((h.place q).lock hj)).1
  · rw [inside]
    exact h.held i q hl
  · simp only [inside] at hin
    have good := h.good i hr hv hin
    have same : Same s (s.take p dev inum type) i := take_other hr fun is => good.disk (by
      rwa [State.dinode, is.2.1, is.2.2])
    exact same.good good
  · simp only [inside] at hl
    exact h.clean i hl

theorem Inv.scan (h : Inv s) (alive : s.panicked = none)
    (hp : s.proc p = .scanning dev type inum) : Inv (scan ninodes s p dev type inum) := by
  have before : ∀ j, ¬(s.proc p).Inside j := by rw [hp]; exact fun _ => id
  have place := h.place p
  rw [hp] at place
  unfold Coherence.scan
  split
  · split
    · exact h.take alive before ‹_›
    · exact h.setProc before (fun _ => id) place
  · exact h.setProc before (fun _ => id) trivial

theorem Inv.next (h : Inv s) (alive : s.panicked = none)
    (hs : step ninodes (.next p) s = some s') : Inv s' := by
  simp only [step, alive, ne_eq, not_true_eq_false, if_false] at hs
  split at hs
  · cases hs
  · rename_i i hp
    split at hs
    · cases hs; exact h.ilock_acquire hp ‹_›
    · cases hs
  · rename_i i hp
    cases hs; exact h.load alive hp
  · rename_i at_ i hp
    cases hs
    by_cases hd : at_ = .drop
    · subst hd
      have place := h.place p
      rw [hp] at place
      exact h.drop place.1 (fun j => by rw [hp]; exact fun hj => hj.1 rfl) place.2
    · exact h.freeStep hp hd
  · rename_i dev type inum hp
    cases hs; exact h.scan alive hp
  · rename_i dev inum hp
    cases hs; exact h.iget (by rw [hp]; exact fun _ => id) dev inum

theorem Inv.call (h : Inv s) (alive : s.panicked = none) (disciplined : Disciplined s l)
    (hl : ∀ p, l ≠ .next p) (hs : step ninodes l s = some s') : Inv s' := by
  simp only [step, alive, ne_eq, not_true_eq_false, if_false] at hs
  cases l with
  | iget p dev inum =>
    obtain ⟨idle, rfl⟩ := guarded hs
    exact h.iget (not_inside_idle idle) dev inum
  | idup p i =>
    obtain ⟨⟨idle, mem⟩, rfl⟩ := guarded hs
    have := h.addRef (not_inside_idle idle) (h.ref_pos mem)
    rwa [State.setProc, ← idle, update_eq_self] at this
  | ilock p i =>
    simp only [Option.ite_none_right_eq_some] at hs
    obtain ⟨⟨idle, mem⟩, hs⟩ := hs
    split at hs <;> cases hs
    · exact h.panic .ilock
    · exact h.setProc (not_inside_idle idle) (fun _ => id) mem
  | modify p i d =>
    obtain ⟨⟨idle, hlock⟩, rfl⟩ := guarded hs
    exact h.modify idle hlock disciplined
  | iupdate p i =>
    obtain ⟨⟨idle, hlock⟩, rfl⟩ := guarded hs
    exact h.iupdate idle hlock
  | iunlock p i =>
    simp only [Option.ite_none_right_eq_some] at hs
    obtain ⟨⟨idle, mem⟩, hs⟩ := hs
    split at hs <;> cases hs
    · exact h.panic .iunlock
    · rename_i hok
      exact h.iunlock idle (not_not.mp (not_or.mp hok).1) disciplined
  | iput p i =>
    simp only [Option.ite_none_right_eq_some] at hs
    obtain ⟨⟨idle, mem⟩, hs⟩ := hs
    split at hs
    · rename_i last
      obtain ⟨hlock, rfl⟩ := guarded hs
      exact h.iput_acquire idle mem hlock last.2.1
    · cases hs
      exact h.drop mem (not_inside_idle idle) disciplined
  | ialloc p dev type =>
    obtain ⟨idle, rfl⟩ := guarded hs
    exact h.setProc (not_inside_idle idle) (fun _ => id) disciplined
  | next p => exact absurd rfl (hl p)

theorem Inv.step (h : Inv s) (disciplined : Disciplined s l)
    (hs : step ninodes l s = some s') : Inv s' := by
  by_cases alive : s.panicked = none
  · by_cases hl : ∃ p, l = .next p
    · obtain ⟨p, rfl⟩ := hl
      exact h.next alive hs
    · exact h.call alive disciplined (fun p hp => hl ⟨p, hp⟩) hs
  · simp [Coherence.step, alive] at hs

theorem Inv.init (disk : Nat → Nat → Dinode) : Inv (State.init disk) := by
  refine ⟨fun _ => rfl, fun i _ hi => ?_, fun _ => trivial, fun i p hl => ?_, fun i hi => ?_,
    fun _ _ => rfl⟩
  · exact absurd hi (lt_irrefl _)
  · cases hl
  · exact absurd hi (lt_irrefl _)

/-- What the processes may rely on.  An entry is free when its `ref` is 0, and nothing is said of
what is left in it then. -/
structure Coherent (ninodes : Nat) (s : State) : Prop where
  unique : ∀ i j, 0 < (s.table i).ref → 0 < (s.table j).ref → (s.table i).dev = (s.table j).dev →
    (s.table i).inum = (s.table j).inum → i = j
  agree : ∀ i, 0 < (s.table i).ref → (s.table i).lock = none → (s.table i).valid = true →
    (s.table i).din = s.dinode i
  /-- An `ialloc` of an inode that a process is still freeing gets the entry that is being freed. -/
  reallocated : ∀ p q at_ i s', s.proc p = .taken (s.table i).dev (s.table i).inum →
    s.proc q = .freeing at_ i → step ninodes (.next p) s = some s' → s'.refs = (p, i) :: s.refs
  /-- Who holds the lock of an entry after `ilock` has a copy that was read after the last
  allocation of the inode. -/
  reread : ∀ p i, (s.table i).lock = some p → ¬(s.proc p).Inside i →
    (s.table i).valid = true ∧ s.read i = s.allocs (s.table i).dev (s.table i).inum

theorem Inv.reallocated (h : Inv s) (hp : s.proc p = .taken (s.table i).dev (s.table i).inum)
    (hq : s.proc q = .freeing at_ i) (hs : Coherence.step ninodes (.next p) s = some s')
    (alive : s.panicked = none) : s'.refs = (p, i) :: s.refs := by
  have mem : (q, i) ∈ s.refs := by
    have place := h.place q
    by_cases hd : at_ = .drop
    · subst hd; rw [hq] at place; exact place.1
    · exact (h.held i q (place.lock (by rw [hq]; exact ⟨hd, rfl⟩))).1
  have pos := h.ref_pos mem
  simp only [Coherence.step, alive, ne_eq, not_true_eq_false, if_false, hp, Option.some.injEq,
    State.iget] at hs
  subst hs
  cases e : Xv6.iget s.table (s.table i).dev (s.table i).inum with
  | none => exact absurd ⟨pos, rfl, rfl⟩ (iget_none e i)
  | some r =>
    obtain ⟨j, t⟩ := r
    rcases iget_cases e with ⟨is, -⟩ | ⟨miss, -⟩
    · obtain rfl := h.unique i j pos is
      rfl
    · exact absurd ⟨pos, rfl, rfl⟩ (miss i)

theorem itable_coherent (disk : Nat → Nat → Dinode) (run : Reach ninodes disk s) :
    Coherent ninodes s := by
  have h : Inv s := run.invariant (Inv.init disk) fun _ _ _ h hok hs => h.step hok hs
  refine ⟨fun i j hi hj hdev hinum => ?_, fun i hr hl hv => ?_, fun p q at_ i s' hp hq hs => ?_,
    fun p i hl hout => ?_⟩
  · exact h.unique i j hi ⟨hj, hdev.symm, hinum.symm⟩
  · have clean := h.clean i fun q hq => by rw [hl] at hq; cases hq
    exact (h.good i hr hv (h.not_inside hl)).agree clean
  · by_cases alive : s.panicked = none
    · exact h.reallocated hp hq hs alive
    · simp [step, alive] at hs
  · obtain ⟨mem, hv⟩ := h.held i p hl
    have valid := hv.resolve_left hout
    refine ⟨valid, (h.good i (h.ref_pos mem) valid fun q hq => hout ?_).fresh⟩
    rwa [← h.inside hl hq]

/-- Process 1 allocates inode 1 while process 0 frees it, waits for the lock of the entry that it
gets, and reads the inode again. -/
def reallocation : List Label :=
  [.iget 0 1 1, .ilock 0 0, .next 0, .next 0, .iunlock 0 0, .iput 0 0, .next 0, .next 0, .next 0,
    .next 0, .ialloc 1 1 2, .next 1, .next 1, .ilock 1 0, .next 0, .next 0, .next 1, .next 1]

theorem itable_coherent_reallocation : ∃ s, Reach 2 (fun _ _ => ⟨1, 0, 0, 0, 0, fun _ => 0⟩) s ∧
    s.proc 0 = .freeing .drop 0 ∧ (s.table 0).lock = some 1 ∧ s.read 0 = 1 ∧ Coherent 2 s := by
  have run : (exec (step 2) (fun s l => decide (Disciplined s l)) reallocation
      (State.init fun _ _ => ⟨1, 0, 0, 0, 0, fun _ => 0⟩)).map
        (fun s => (s.proc 0, (s.table 0).lock, s.read 0)) =
      some (.freeing .drop 0, some 1, 1) := by
    decide +kernel
  obtain ⟨s, hs, result⟩ := Option.map_eq_some_iff.mp run
  simp only [Prod.mk.injEq] at result
  have reach := reach_of_exec (fun s l h => of_decide_eq_true h) _ hs
  exact ⟨s, reach, result.1, result.2.1, result.2.2, itable_coherent _ reach⟩

/-- Inode 5 is read into entry 1, both entries are given up, and the next `iget` takes entry 0: a
change leaves the old copy in entry 1. -/
def leftover : List Label :=
  [.iget 0 1 7, .iget 0 1 5, .ilock 0 1, .next 0, .next 0, .iunlock 0 1, .iput 0 0, .iput 0 1,
    .iget 0 1 5, .ilock 0 0, .next 0, .next 0, .modify 0 0 ⟨1, 0, 0, 2, 0, fun _ => 0⟩,
    .iupdate 0 0]

theorem free_entry_keeps_old_copy : ¬∀ (ninodes : Nat) (disk : Nat → Nat → Dinode) (s : State)
    (i : Slot), Reach ninodes disk s → (s.table i).lock = none → (s.table i).valid = true →
      (s.table i).din = s.dinode i := by
  intro claim
  have run : (exec (step 10) (fun s l => decide (Disciplined s l)) leftover
      (State.init fun _ _ => ⟨1, 0, 0, 1, 0, fun _ => 0⟩)).map
        (fun s => ((s.table 1).lock, (s.table 1).valid,
          decide ((s.table 1).din = s.dinode 1))) = some (none, true, false) := by
    decide +kernel
  obtain ⟨s, hs, result⟩ := Option.map_eq_some_iff.mp run
  simp only [Prod.mk.injEq, decide_eq_false_iff_not] at result
  exact result.2.2 (claim 10 _ s 1 (reach_of_exec (fun s l h => of_decide_eq_true h) _ hs)
    result.1 result.2.1)

end Xv6.Coherence
