import Xv6.Lib.Dll
import Xv6.Lib.Run
import Xv6.Lib.Tally
import Xv6.Param

/-! The structure of the block cache of `kernel/bio.c`: its list, its reference counts, and which
buffer stands for which block. A section under `bcache.lock` or a sleep-lock's lock is one step. -/

namespace Xv6.Bcache

open Transition Dll Tally Function List

abbrev Index : Type := Fin nbuf

abbrev Process : Type := Fin nproc

/-- The nodes of the list: `&bcache.head` and `&bcache.buf[i]`. -/
inductive Node
  | head
  | buf (i : Index)
  deriving DecidableEq, Repr

/-- `struct buf`.  `lock` is the holder of the sleep-lock. -/
structure Buf where
  valid : Bool
  dev : UInt32
  blockno : UInt32
  refcnt : UInt32
  lock : Option Process

inductive Pc
  /-- outside the cache, or in a caller of it -/
  | idle
  /-- in `bget`, in `acquiresleep` -/
  | acquire (i : Index)
  /-- in `bread`, in `virtio_disk_rw` -/
  | fill (i : Index)
  /-- in `brelse`, after `releasesleep` -/
  | release (i : Index)
  deriving DecidableEq, Repr

namespace Pc

def waiting : Pc → Option Index
  | acquire i => some i
  | _ => none

/-- The buffer whose lock the process has given up, but not yet its reference. -/
def releasing : Pc → Option Index
  | release i => some i
  | _ => none

end Pc

/-- The cache. `logged` are the blocks in the log's header that `install_trans` has not passed;
`pins` records the calls of `bpin` less those of `bunpin`. -/
structure State where
  buf : Index → Buf
  links : Links Node
  pc : Process → Pc
  logged : List (UInt32 × UInt32)
  panicked : Bool
  pins : Index → Int

namespace State

variable (s : State)

def setBuf (i : Index) (b : Buf) : State := { s with buf := update s.buf i b }

def setPc (p : Process) (pc : Pc) : State := { s with pc := update s.pc p pc }

def key (i : Index) : UInt32 × UInt32 := ((s.buf i).dev, (s.buf i).blockno)

def caches (dev blockno : UInt32) : Node → Bool
  | .head => false
  | .buf i => (s.buf i).dev = dev ∧ (s.buf i).blockno = blockno

def unused : Node → Bool
  | .head => false
  | .buf i => (s.buf i).refcnt = 0

/-- The section of `bget`.  It is `none` if one of the loops does not end. -/
def bget (p : Process) (dev blockno : UInt32) : Option State :=
  match scan s.links.next .head (s.caches dev blockno) (nbuf + 1) (s.links.next .head) with
  | none => none
  | some (some (.buf i)) =>
    some ((s.setBuf i { s.buf i with refcnt := (s.buf i).refcnt + 1 }).setPc p (.acquire i))
  | some _ =>
    match scan s.links.prev .head s.unused (nbuf + 1) (s.links.prev .head) with
    | none => none
    | some (some (.buf i)) =>
      some ((s.setBuf i { s.buf i with
        dev := dev, blockno := blockno, valid := false, refcnt := 1 }).setPc p (.acquire i))
    | some _ => some { s with panicked := true }

/-- The end of `acquiresleep` in `bget`, and the test of `valid` in `bread`. -/
def acquire (p : Process) (i : Index) : State :=
  (s.setBuf i { s.buf i with lock := some p }).setPc p (if (s.buf i).valid then .idle else .fill i)

/-- `bread` after `virtio_disk_rw`. -/
def fill (p : Process) (i : Index) : State :=
  (s.setBuf i { s.buf i with valid := true }).setPc p .idle

/-- `brelse` up to the end of `releasesleep`. -/
def releasesleep (p : Process) (i : Index) : State :=
  if (s.buf i).lock ≠ some p then { s with panicked := true }
  else (s.setBuf i { s.buf i with lock := none }).setPc p (.release i)

def brelse (p : Process) (i : Index) : State :=
  let refcnt := (s.buf i).refcnt - 1
  let s := (s.setBuf i { s.buf i with refcnt := refcnt }).setPc p .idle
  if refcnt = 0 then { s with links := (s.links.unlink (.buf i)).push .head (.buf i) } else s

/-- `bpin`, as `log_write` calls it. -/
def bpin (i : Index) : State :=
  { s.setBuf i { s.buf i with refcnt := (s.buf i).refcnt + 1 } with
    logged := s.logged ++ [s.key i]
    pins := update s.pins i (s.pins i + 1) }

/-- `bunpin`, as `install_trans` calls it. -/
def bunpin (i : Index) : State :=
  { s.setBuf i { s.buf i with refcnt := (s.buf i).refcnt - 1 } with
    logged := s.logged.erase (s.key i)
    pins := update s.pins i (s.pins i - 1) }

end State

inductive Label
  | bget (p : Process) (dev blockno : UInt32)
  | acquire (p : Process)
  | fill (p : Process)
  | releasesleep (p : Process) (i : Index)
  | brelse (p : Process)
  | bpin (p : Process) (i : Index)
  | bunpin (p : Process) (i : Index)

/-- `log_write` pins a held buffer of a block not in the header; `install_trans` unpins one of a
block in it. -/
def step (l : Label) (s : State) : Option State :=
  if s.panicked then none
  else match l with
  | .bget p dev blockno => if s.pc p = .idle then s.bget p dev blockno else none
  | .acquire p =>
    match s.pc p with
    | .acquire i => if (s.buf i).lock = none then some (s.acquire p i) else none
    | _ => none
  | .fill p =>
    match s.pc p with
    | .fill i => some (s.fill p i)
    | _ => none
  | .releasesleep p i => if s.pc p = .idle then some (s.releasesleep p i) else none
  | .brelse p =>
    match s.pc p with
    | .release i => some (s.brelse p i)
    | _ => none
  | .bpin p i =>
    if s.pc p = .idle ∧ (s.buf i).lock = some p ∧ s.key i ∉ s.logged then some (s.bpin i) else none
  | .bunpin p i =>
    if s.pc p = .idle ∧ (s.buf i).lock = some p ∧ s.key i ∈ s.logged then some (s.bunpin i)
    else none

/-- The list that `binit` makes, whatever the links were before. -/
def binit (L : Links Node) : Links Node :=
  (List.finRange nbuf).foldl (fun L i => L.push .head (.buf i))
    ((L.setPrev .head .head).setNext .head .head)

def boot (L : Links Node) : State where
  buf := fun _ => ⟨false, 0, 0, 0, none⟩
  links := binit L
  pc := fun _ => .idle
  logged := []
  panicked := false
  pins := fun _ => 0

/-- No block of device 0 is asked for. -/
def OnDevice (_ : State) : Label → Prop
  | .bget _ dev _ => dev ≠ 0
  | _ => True

instance : DecidableRel OnDevice := fun _ l =>
  match l with
  | .bget _ dev _ => inferInstanceAs (Decidable (dev ≠ 0))
  | .acquire .. | .fill .. | .releasesleep .. | .brelse .. | .bpin .. | .bunpin .. => .isTrue trivial

namespace State

variable (s : State)

/-- The processes that hold buffer `i`, or are in `brelse` with the lock given up but not yet the
reference. -/
def holders (i : Index) : Int :=
  (if (s.buf i).lock.isSome then 1 else 0) + tally (fun p => (s.pc p).releasing) i

def waiters (i : Index) : Int := tally (fun p => (s.pc p).waiting) i

end State

def Listed (s : State) (xs : List Index) : Prop :=
  Circular s.links .head (xs.map .buf) ∧ ∀ i, i ∈ xs

variable {s : State} {xs : List Index}

theorem Listed.perm (h : Listed s xs) : xs.Perm (List.finRange nbuf) := by
  have nodup : xs.Nodup := (nodup_cons.mp h.1.nodup).2.of_map _
  exact (perm_ext_iff_of_nodup nodup (nodup_finRange nbuf)).mpr fun i =>
    iff_of_true (h.2 i) (mem_finRange i)

theorem Listed.length (h : Listed s xs) : xs.length = nbuf :=
  h.perm.length_eq.trans (length_finRange)

structure Inv (s : State) : Prop where
  listed : ∃ xs, Listed s xs
  unique : ∀ i j, (s.buf i).dev ≠ 0 → s.key i = s.key j → i = j
  refcnt : ∀ i, ((s.buf i).refcnt.toNat : Int) = s.holders i + s.waiters i + s.pins i
  pins : ∀ i, s.pins i = if s.key i ∈ s.logged then 1 else 0
  logged : s.logged.Nodup ∧ ∀ k ∈ s.logged, k.1 ≠ 0 ∧ ∃ i, s.key i = k
  named : ∀ i, (s.buf i).refcnt ≠ 0 → (s.buf i).dev ≠ 0

section Count

variable {s s' : State} {p : Process} {i j : Index} {b : Buf} {pc : Pc}

/-- What the holder of a lock adds to the references of the buffer. -/
def Buf.locks (b : Buf) : Int := if b.lock.isSome then 1 else 0

/-- What a process adds to the references of buffer `j`. -/
def Pc.refs (pc : Pc) (j : Index) : Int := pointer pc.releasing j + pointer pc.waiting j

def State.refs (s : State) (i : Index) : Int := s.holders i + s.waiters i

theorem State.refs_eq (s : State) (i : Index) : s.refs i = (s.buf i).locks +
    tally (fun p => (s.pc p).releasing) i + tally (fun p => (s.pc p).waiting) i := rfl

theorem refs_setPc (lock : (s'.buf j).lock = b.lock) (moved : s'.pc = update s.pc p pc) :
    s'.refs j + (s.buf j).locks + (s.pc p).refs j = s.refs j + b.locks + pc.refs j := by
  have releasing := congrFun (tally_update (fun q => (s.pc q).releasing) p pc.releasing) j
  have waiting := congrFun (tally_update (fun q => (s.pc q).waiting) p pc.waiting) j
  have same : ∀ {β : Type} (f : Pc → β),
      (fun q => f (s'.pc q)) = update (fun q => f (s.pc q)) p (f pc) := by
    intro β f
    rw [moved]
    exact comp_update f s.pc p pc
  have locks : (s'.buf j).locks = b.locks := by rw [Buf.locks, lock, Buf.locks]
  rw [State.refs_eq, State.refs_eq, same Pc.releasing, same Pc.waiting, releasing, waiting, locks,
    Pc.refs, Pc.refs]
  simp only [Pi.add_apply, Pi.sub_apply]
  ring

@[simp] theorem refs_idle : Pc.idle.refs j = 0 := rfl

@[simp] theorem refs_fill : (Pc.fill i).refs j = 0 := rfl

theorem refs_acquire : (Pc.acquire i).refs j = if j = i then 1 else 0 := by
  show 0 + (Pi.single i 1 : Index → Int) j = _
  rw [zero_add, Pi.single_apply]

theorem refs_release : (Pc.release i).refs j = if j = i then 1 else 0 := by
  show (Pi.single i 1 : Index → Int) j + 0 = _
  rw [add_zero, Pi.single_apply]

theorem State.refs_nonneg (s : State) (i : Index) : 0 ≤ s.refs i := by
  have h1 := tally_nonneg (fun p => (s.pc p).releasing) i
  have h2 := tally_nonneg (fun p => (s.pc p).waiting) i
  have h3 : 0 ≤ (s.buf i).locks := by unfold Buf.locks; split <;> decide
  rw [State.refs_eq]
  omega

theorem State.refs_le (s : State) (i : Index) : s.refs i ≤ 2 * nproc + 1 := by
  have h1 := tally_le_card (fun p => (s.pc p).releasing) i
  have h2 := tally_le_card (fun p => (s.pc p).waiting) i
  have h3 : (s.buf i).locks ≤ 1 := by unfold Buf.locks; split <;> decide
  rw [Fintype.card_fin] at h1 h2
  rw [State.refs_eq]
  omega

end Count

variable {l : Label}

namespace Inv

variable {s s' : State} {p : Process} {i j : Index}

theorem pins_range (h : Inv s) (i : Index) : 0 ≤ s.pins i ∧ s.pins i ≤ 1 := by
  rw [h.pins]
  split <;> decide

theorem count (h : Inv s) (i : Index) : ((s.buf i).refcnt.toNat : Int) = s.refs i + s.pins i :=
  h.refcnt i

theorem unused (h : Inv s) (zero : (s.buf i).refcnt = 0) : s.refs i = 0 ∧ s.pins i = 0 := by
  have count := h.count i
  have refs := s.refs_nonneg i
  have pins := (h.pins_range i).1
  rw [zero] at count
  replace count : (0 : Int) = s.refs i + s.pins i := count
  omega

theorem refcnt_add_one (h : Inv s) (i : Index) :
    (((s.buf i).refcnt + 1).toNat : Int) = (s.buf i).refcnt.toNat + 1 := by
  have count := h.count i
  have refs := s.refs_le i
  have pins := (h.pins_range i).2
  rw [UInt32.toNat_add, UInt32.toNat_one]
  norm_num at refs
  omega

theorem add_one_ne_zero (h : Inv s) (i : Index) : (s.buf i).refcnt + 1 ≠ 0 := by
  intro zero
  have more := h.refcnt_add_one i
  rw [zero] at more
  replace more : (0 : Int) = (s.buf i).refcnt.toNat + 1 := more
  omega

theorem refcnt_sub_one (some : (s.buf i).refcnt ≠ 0) :
    (((s.buf i).refcnt - 1).toNat : Int) = (s.buf i).refcnt.toNat - 1 := by
  have pos : (s.buf i).refcnt.toNat ≠ 0 := fun zero => some (UInt32.toNat_inj.mp zero)
  have bound := (s.buf i).refcnt.toNat_lt
  rw [UInt32.toNat_sub, UInt32.toNat_one]
  omega

theorem refcnt_ne_zero (h : Inv s) (some : 0 < s.refs i) : (s.buf i).refcnt ≠ 0 := by
  intro zero
  have := (h.unused zero).1
  omega

/-- A process moves, and buffer `i` becomes `b`, with its pins and the header of the log. -/
theorem change (h : Inv s) (buf : s'.buf = update s.buf i b)
    (moved : s'.pc = update s.pc p pc) (pins : s'.pins = update s.pins i pin)
    (listed : ∃ xs, Listed s' xs) (others : ∀ j, j ≠ i → pc.refs j = (s.pc p).refs j)
    (count : (b.refcnt.toNat : Int) + (s.buf i).locks + (s.pc p).refs i + s.pins i =
      (s.buf i).refcnt.toNat + b.locks + pc.refs i + pin)
    (named : b.refcnt ≠ 0 → b.dev ≠ 0)
    (alone : b.dev ≠ 0 → ∀ j, j ≠ i → s.key j ≠ (b.dev, b.blockno))
    (mine : pin = if (b.dev, b.blockno) ∈ s'.logged then 1 else 0)
    (theirs : ∀ j, j ≠ i → (s.key j ∈ s'.logged ↔ s.key j ∈ s.logged)) (nodup : s'.logged.Nodup)
    (cached : ∀ k ∈ s'.logged, k.1 ≠ 0 ∧ (k = (b.dev, b.blockno) ∨ ∃ j, j ≠ i ∧ s.key j = k)) :
    Inv s' := by
  have self : s'.buf i = b := by rw [buf, update_self]
  have other : ∀ j, j ≠ i → s'.buf j = s.buf j := fun j hj => by rw [buf, update_of_ne hj]
  have keySelf : s'.key i = (b.dev, b.blockno) := by rw [State.key, self]
  have keyOther : ∀ j, j ≠ i → s'.key j = s.key j := fun j hj => by
    rw [State.key, other j hj, State.key]
  constructor
  case listed => exact listed
  case unique =>
    intro a c ha same
    by_cases hai : a = i <;> by_cases hci : c = i
    · rw [hai, hci]
    · rw [hai, keySelf, keyOther c hci] at same
      rw [hai, self] at ha
      exact absurd same.symm (alone ha c hci)
    · rw [hci, keySelf, keyOther a hai] at same
      rw [other a hai, show (s.buf a).dev = b.dev from congrArg Prod.fst same] at ha
      exact absurd same (alone ha a hai)
    · rw [keyOther a hai, keyOther c hci] at same
      rw [other a hai] at ha
      exact h.unique a c ha same
  case refcnt =>
    intro j
    show _ = s'.refs j + _
    have before := h.count j
    by_cases hj : j = i
    · subst hj
      have refs := refs_setPc (b := b) (congrArg Buf.lock self) moved
      rw [self, pins, update_self]
      omega
    · have refs := refs_setPc (b := s.buf j) (congrArg Buf.lock (other j hj)) moved
      have same := others j hj
      rw [other j hj, pins, update_of_ne hj]
      omega
  case pins =>
    intro j
    by_cases hj : j = i
    · rw [hj, pins, update_self, keySelf, mine]
    · rw [pins, update_of_ne hj, keyOther j hj, h.pins, if_congr (theirs j hj) rfl rfl]
  case logged =>
    refine ⟨nodup, fun k hk => ⟨(cached k hk).1, ?_⟩⟩
    rcases (cached k hk).2 with rfl | ⟨j, hj, key⟩
    · exact ⟨i, keySelf⟩
    · exact ⟨j, (keyOther j hj).trans key⟩
  case named =>
    intro j hj
    by_cases hji : j = i
    · rw [hji, self] at hj ⊢
      exact named hj
    · rw [other j hji] at hj ⊢
      exact h.named j hj

/-- A process moves and buffer `i` changes, but stands for the same block. -/
theorem move (h : Inv s) (buf : s'.buf = update s.buf i b)
    (moved : s'.pc = update s.pc p pc) (listed : ∃ xs, Listed s' xs)
    (key : (b.dev, b.blockno) = s.key i) (logged : s'.logged = s.logged) (pins : s'.pins = s.pins)
    (others : ∀ j, j ≠ i → pc.refs j = (s.pc p).refs j)
    (count : (b.refcnt.toNat : Int) + (s.buf i).locks + (s.pc p).refs i =
      (s.buf i).refcnt.toNat + b.locks + pc.refs i)
    (named : b.refcnt ≠ 0 → (s.buf i).dev ≠ 0) : Inv s' := by
  have dev : b.dev = (s.buf i).dev := congrArg Prod.fst key
  refine h.change buf moved (pins.trans (update_eq_self i s.pins).symm) listed others (by omega)
    (dev ▸ named) (fun hd j hj same => ?_) ?_ (fun j _ => by rw [logged]) ?_ fun k hk => ?_
  · exact hj (h.unique i j (dev ▸ hd) (key ▸ same.symm)).symm
  · rw [key, logged, h.pins]
  · rw [logged]
    exact h.logged.1
  · rw [logged] at hk
    obtain ⟨some, j, hj⟩ := h.logged.2 k hk
    refine ⟨some, ?_⟩
    by_cases hji : j = i
    · exact .inl (by rw [key, ← hji, hj])
    · exact .inr ⟨j, hji, hj⟩

theorem refs_pos (h : 0 < (s.buf i).locks + (s.pc p).refs i) : 0 < s.refs i := by
  have releasing := tally_nonneg (fun p => (s.pc p).releasing) i
  have waiting := tally_nonneg (fun p => (s.pc p).waiting) i
  have locks : 0 ≤ (s.buf i).locks := by unfold Buf.locks; split <;> decide
  rw [State.refs_eq]
  by_cases lock : 0 < (s.buf i).locks
  · omega
  · have mine : 0 < pointer (s.pc p).releasing i + pointer (s.pc p).waiting i := by
      unfold Pc.refs at h
      omega
    rw [pointer_apply, pointer_apply] at mine
    split at mine
    next rel =>
      have := tally_pos (g := fun p => (s.pc p).releasing) (a := p) rel
      omega
    next =>
      split at mine
      next wait =>
        have := tally_pos (g := fun p => (s.pc p).waiting) (a := p) wait
        omega
      next => omega

theorem acquire (h : Inv s) (at_ : s.pc p = .acquire i) (lock : (s.buf i).lock = none) :
    Inv (s.acquire p i) := by
  have some : (s.buf i).refcnt ≠ 0 := h.refcnt_ne_zero (refs_pos (p := p) (by
    rw [at_, refs_acquire, if_pos rfl, Buf.locks, lock]; decide))
  have free : (s.buf i).locks = 0 := by rw [Buf.locks, lock]; rfl
  have quiet : ∀ j, (if (s.buf i).valid then Pc.idle else .fill i).refs j = 0 := by
    intro j
    split <;> rfl
  refine h.move rfl rfl h.listed rfl rfl rfl (fun j hj => ?_) ?_ fun _ => h.named i some
  · rw [at_, refs_acquire, if_neg hj, quiet]
  · rw [at_, refs_acquire, if_pos rfl, quiet, free]
    show ((s.buf i).refcnt.toNat : Int) + 0 + 1 = (s.buf i).refcnt.toNat + 1 + 0
    omega

theorem fill (h : Inv s) (at_ : s.pc p = .fill i) : Inv (s.fill p i) := by
  refine h.move rfl rfl h.listed rfl rfl rfl (fun j hj => ?_) ?_ (h.named i)
  · rw [at_, refs_fill, refs_idle]
  · rw [at_, refs_fill, refs_idle]
    rfl

theorem panic (h : Inv s) : Inv { s with panicked := true } :=
  ⟨h.listed, h.unique, h.refcnt, h.pins, h.logged, h.named⟩

theorem releasesleep (h : Inv s) (at_ : s.pc p = .idle) : Inv (s.releasesleep p i) := by
  unfold State.releasesleep
  split
  · exact h.panic
  next lock =>
    rw [not_not] at lock
    have held : (s.buf i).locks = 1 := by rw [Buf.locks, lock]; rfl
    have some : (s.buf i).refcnt ≠ 0 := h.refcnt_ne_zero (refs_pos (p := p) (by
      rw [at_, refs_idle, held]; decide))
    refine h.move rfl rfl h.listed rfl rfl rfl (fun j hj => ?_) ?_ fun _ => h.named i some
    · rw [at_, refs_release, if_neg hj, refs_idle]
    · rw [at_, refs_release, if_pos rfl, refs_idle, held]
      show ((s.buf i).refcnt.toNat : Int) + 1 + 0 = (s.buf i).refcnt.toNat + 0 + 1
      omega

theorem listed_move (h : Listed s xs) (i : Index) (buf : Index → Buf) (pc : Process → Pc) :
    Listed { s with buf := buf, pc := pc,
                    links := (s.links.unlink (.buf i)).push .head (.buf i) }
      (i :: xs.erase i) := by
  refine ⟨?_, fun j => ?_⟩
  · have moved := h.1.move (mem_map_of_mem (h.2 i))
    rwa [← map_erase (fun a b eq => by cases eq; rfl)] at moved
  · by_cases hj : j = i
    · rw [hj]; exact mem_cons_self
    · exact mem_cons_of_mem _ ((mem_erase_of_ne hj).mpr (h.2 j))

theorem brelse (h : Inv s) (at_ : s.pc p = .release i) : Inv (s.brelse p i) := by
  have some : (s.buf i).refcnt ≠ 0 := h.refcnt_ne_zero (refs_pos (p := p) (by
    rw [at_, refs_release, if_pos rfl, Buf.locks]; split <;> decide))
  have less := refcnt_sub_one some
  obtain ⟨xs, listed⟩ := h.listed
  have others : ∀ j, j ≠ i → Pc.idle.refs j = (s.pc p).refs j := by
    intro j hj
    rw [at_, refs_release, if_neg hj, refs_idle]
  have count : (((s.buf i).refcnt - 1).toNat : Int) + (s.buf i).locks + (s.pc p).refs i =
      (s.buf i).refcnt.toNat + (s.buf i).locks + Pc.idle.refs i := by
    rw [at_, refs_release, if_pos rfl, refs_idle]
    omega
  unfold State.brelse
  dsimp only
  split
  · exact h.move rfl rfl ⟨_, listed_move listed i _ _⟩ rfl rfl rfl others count
      fun _ => h.named i some
  · exact h.move rfl rfl ⟨xs, listed⟩ rfl rfl rfl others count fun _ => h.named i some

/-- What the two scans of `bget` find: the buffer of the block, or else the last unused one. -/
theorem bget_cases (listed : Listed s xs) (p : Process) (dev blockno : UInt32) :
    (∃ i, s.key i = (dev, blockno) ∧ s.bget p dev blockno =
      some ((s.setBuf i { s.buf i with refcnt := (s.buf i).refcnt + 1 }).setPc p (.acquire i))) ∨
    (∀ i, s.key i ≠ (dev, blockno)) ∧
      ((∃ i, (s.buf i).refcnt = 0 ∧
        (∃ as bs, xs.reverse = as ++ i :: bs ∧ ∀ j ∈ as, (s.buf j).refcnt ≠ 0) ∧
        s.bget p dev blockno = some ((s.setBuf i { s.buf i with
          dev := dev, blockno := blockno, valid := false, refcnt := 1 }).setPc p (.acquire i))) ∨
      (∀ i, (s.buf i).refcnt ≠ 0) ∧ s.bget p dev blockno = some { s with panicked := true }) := by
  have fuel : (xs.map Node.buf).length < nbuf + 1 := by
    rw [length_map, listed.length]
    exact Nat.lt_succ_self _
  have first := listed.1.scan_next (s.caches dev blockno) fuel
  have last := listed.1.scan_prev s.unused fuel
  rw [List.find?_map] at first
  rw [← map_reverse, List.find?_map] at last
  unfold State.bget
  rw [first, last]
  cases hit : xs.find? (s.caches dev blockno ∘ Node.buf) with
  | some i =>
    have found := List.find?_some hit
    have key : (s.buf i).dev = dev ∧ (s.buf i).blockno = blockno := of_decide_eq_true found
    exact .inl ⟨i, Prod.ext key.1 key.2, rfl⟩
  | none =>
    refine .inr ⟨fun i key => ?_, ?_⟩
    · have miss := List.find?_eq_none.mp hit i (listed.2 i)
      exact miss (decide_eq_true ⟨congrArg Prod.fst key, congrArg Prod.snd key⟩)
    · cases free : xs.reverse.find? (s.unused ∘ Node.buf) with
      | some i =>
        obtain ⟨zero, as, bs, split, used⟩ := List.find?_eq_some_iff_append.mp free
        refine .inl ⟨i, of_decide_eq_true zero, ⟨as, bs, split, fun j hj => ?_⟩, rfl⟩
        exact of_decide_eq_false ((Bool.not_eq_true' _).mp (used j hj))
      | none =>
        refine .inr ⟨fun i zero => ?_, rfl⟩
        exact List.find?_eq_none.mp free _ (mem_reverse.mpr (listed.2 i)) (decide_eq_true zero)

/-- A buffer that nobody refers to is taken for a block that no buffer stands for. -/
theorem recycle (h : Inv s) (at_ : s.pc p = .idle) (onDevice : dev ≠ 0)
    (miss : ∀ i, s.key i ≠ (dev, blockno)) (zero : (s.buf i).refcnt = 0) :
    Inv ((s.setBuf i { s.buf i with
      dev := dev, blockno := blockno, valid := false, refcnt := 1 }).setPc p (.acquire i)) := by
  obtain ⟨refs, pin⟩ := h.unused zero
  have oldOut : s.key i ∉ s.logged := fun mem => by
    rw [h.pins, if_pos mem] at pin
    cases pin
  have newOut : (dev, blockno) ∉ s.logged := fun mem => by
    obtain ⟨j, hj⟩ := (h.logged.2 _ mem).2
    exact miss j hj
  refine h.change rfl rfl (update_eq_self i s.pins).symm h.listed (fun j hj => ?_) ?_
    (fun _ => onDevice) (fun _ j _ => miss j) (pin.trans (if_neg newOut).symm) (fun _ _ => .rfl)
    h.logged.1 fun k hk => ?_
  · rw [at_, refs_acquire, if_neg hj, refs_idle]
  · rw [at_, refs_idle, refs_acquire, if_pos rfl, zero]
    show (1 : Int) + (s.buf i).locks + 0 + s.pins i = 0 + (s.buf i).locks + 1 + s.pins i
    omega
  · obtain ⟨some, j, hj⟩ := h.logged.2 k hk
    refine ⟨some, .inr ⟨j, ?_, hj⟩⟩
    rintro rfl
    exact oldOut (hj ▸ hk)

theorem bget (h : Inv s) (at_ : s.pc p = .idle) (onDevice : dev ≠ 0)
    (hs : s.bget p dev blockno = some s') : Inv s' := by
  obtain ⟨xs, listed⟩ := h.listed
  rcases bget_cases listed p dev blockno with
    ⟨i, key, eq⟩ | ⟨miss, ⟨i, zero, -, eq⟩ | ⟨-, eq⟩⟩ <;> rw [eq] at hs <;> cases hs
  · have more := h.refcnt_add_one i
    refine h.move rfl rfl h.listed rfl rfl rfl (fun j hj => ?_) ?_ fun _ => ?_
    · rw [at_, refs_acquire, if_neg hj, refs_idle]
    · rw [at_, refs_acquire, if_pos rfl, refs_idle]
      show (((s.buf i).refcnt + 1).toNat : Int) + _ + 0 = _ + (s.buf i).locks + 1
      omega
    · rwa [show (s.buf i).dev = dev from congrArg Prod.fst key]
  · exact h.recycle at_ onDevice miss zero
  · exact h.panic

theorem held (h : Inv s) (lock : (s.buf i).lock = some p) :
    0 < s.refs i ∧ (s.buf i).refcnt ≠ 0 ∧ (s.buf i).dev ≠ 0 ∧ ∀ j, j ≠ i → s.key j ≠ s.key i := by
  have locks : (s.buf i).locks = 1 := by rw [Buf.locks, lock]; rfl
  have pos : 0 < s.refs i := by
    refine refs_pos (p := p) ?_
    have : 0 ≤ (s.pc p).refs i := by
      unfold Pc.refs
      rw [pointer_apply, pointer_apply]
      split <;> split <;> decide
    omega
  have some := h.refcnt_ne_zero pos
  have named := h.named i some
  exact ⟨pos, some, named, fun j hj same => hj (h.unique i j named same.symm).symm⟩

/-- The header of the log and the pins of buffer `i` change, with its reference count. -/
theorem repin (h : Inv s) (lock : (s.buf i).lock = some p) {refcnt : UInt32}
    {logged : List (UInt32 × UInt32)}
    (count : (refcnt.toNat : Int) = (s.buf i).refcnt.toNat + (pin - s.pins i))
    (self : pin = if s.key i ∈ logged then 1 else 0)
    (others : ∀ k, k ≠ s.key i → (k ∈ logged ↔ k ∈ s.logged)) (nodup : logged.Nodup) :
    Inv { s.setBuf i { s.buf i with refcnt := refcnt } with
          logged := logged, pins := update s.pins i pin } := by
  obtain ⟨-, -, named, alone⟩ := h.held lock
  refine h.change (p := p) rfl (update_eq_self p s.pc).symm rfl h.listed (fun _ _ => rfl) ?_
    (fun _ => named) (fun _ => alone) self (fun j hj => others _ (alone j hj)) nodup fun k hk => ?_
  · show (refcnt.toNat : Int) + (s.buf i).locks + _ + _ = _ + (s.buf i).locks + _ + _
    omega
  · by_cases mine : k = s.key i
    · rw [mine]
      exact ⟨named, .inl rfl⟩
    · obtain ⟨some, j, hj⟩ := h.logged.2 k ((others k mine).mp hk)
      refine ⟨some, .inr ⟨j, ?_, hj⟩⟩
      rintro rfl
      exact mine hj.symm

theorem bpin (h : Inv s) (lock : (s.buf i).lock = some p) (new : s.key i ∉ s.logged) :
    Inv (s.bpin i) := by
  have more := h.refcnt_add_one i
  have none : s.pins i = 0 := by rw [h.pins, if_neg new]
  refine h.repin lock ?_ ?_ (fun k hk => ?_) ?_
  · omega
  · rw [none, if_pos (by simp)]
    rfl
  · rw [mem_append, mem_singleton, or_iff_left hk]
  · refine nodup_append.mpr ⟨h.logged.1, nodup_singleton _, fun a ha b hb => ?_⟩
    rw [mem_singleton.mp hb]
    exact fun eq => new (eq ▸ ha)

theorem bunpin (h : Inv s) (lock : (s.buf i).lock = some p) (old : s.key i ∈ s.logged) :
    Inv (s.bunpin i) := by
  have less := refcnt_sub_one (h.held lock).2.1
  have one : s.pins i = 1 := by rw [h.pins, if_pos old]
  refine h.repin lock ?_ ?_ (fun k hk => ?_) (h.logged.1.erase _)
  · omega
  · rw [one, if_neg fun mem => (h.logged.1.mem_erase_iff.mp mem).1 rfl]
    rfl
  · exact mem_erase_of_ne hk

theorem step (h : Inv s) (ok : OnDevice s l) (hs : Bcache.step l s = some s') : Inv s' := by
  unfold Bcache.step at hs
  split at hs
  · cases hs
  cases l with
  | bget p dev blockno =>
    obtain ⟨at_, hs⟩ := Option.ite_none_right_eq_some.mp hs
    exact h.bget at_ ok hs
  | acquire p =>
    dsimp only at hs
    split at hs
    next i at_ =>
      obtain ⟨lock, rfl⟩ := guarded hs
      exact h.acquire at_ lock
    next => cases hs
  | fill p =>
    dsimp only at hs
    split at hs
    next i at_ =>
      cases hs
      exact h.fill at_
    next => cases hs
  | releasesleep p i =>
    obtain ⟨at_, rfl⟩ := guarded hs
    exact h.releasesleep at_
  | brelse p =>
    dsimp only at hs
    split at hs
    next i at_ =>
      cases hs
      exact h.brelse at_
    next => cases hs
  | bpin p i =>
    obtain ⟨⟨-, lock, new⟩, rfl⟩ := guarded hs
    exact h.bpin lock new
  | bunpin p i =>
    obtain ⟨⟨-, lock, old⟩, rfl⟩ := guarded hs
    exact h.bunpin lock old

end Inv

theorem circular_foldl_push (ys : List Index) {L : Links Node} (c : Circular L .head (xs.map .buf))
    (nodup : ys.Nodup) (new : ∀ i ∈ ys, i ∉ xs) :
    Circular (ys.foldl (fun L i => L.push .head (.buf i)) L) .head
      ((ys.reverse ++ xs).map .buf) := by
  induction ys generalizing L xs with
  | nil => exact c
  | cons y ys ih =>
    have fresh : Node.buf y ∉ Node.head :: xs.map .buf := by
      simpa using new y mem_cons_self
    rw [foldl_cons, reverse_cons, append_assoc, singleton_append]
    refine ih (c.push fresh) (nodup_cons.mp nodup).2 fun i hi => ?_
    rw [mem_cons, not_or]
    refine ⟨?_, new i (mem_cons_of_mem _ hi)⟩
    rintro rfl
    exact (nodup_cons.mp nodup).1 hi

theorem boot_inv (L : Links Node) : Inv (boot L) where
  listed := by
    have next : ((L.setPrev .head .head).setNext .head .head).next .head = Node.head := by
      simp [Links.setNext]
    have prev : ((L.setPrev .head .head).setNext .head .head).prev .head = Node.head := by
      simp [Links.setNext, Links.setPrev]
    have empty : Circular ((L.setPrev .head .head).setNext .head .head) Node.head
      (([] : List Index).map .buf) := circular_nil next prev
    have full := circular_foldl_push (List.finRange nbuf) empty (nodup_finRange nbuf)
      fun _ _ => not_mem_nil
    rw [append_nil] at full
    exact ⟨_, full, fun i => mem_reverse.mpr (mem_finRange i)⟩
  unique i j named := (named rfl).elim
  refcnt i := by
    show (0 : Int) = 0 + tally (fun _ => none) i + tally (fun _ => none) i + 0
    rw [tally_const_none]
    rfl
  pins i := rfl
  logged := ⟨nodup_nil, nofun⟩
  named i some := (some rfl).elim

/-- A step changes one buffer, which keeps its block unless nothing refers to it, and moves it to
the front if its last reference is dropped. -/
inductive Effect (s s' : State) : Prop
  | keep (i : Index) (b : Buf) (buf : s'.buf = update s.buf i b)
      (key : (s.buf i).refcnt ≠ 0 → (b.dev, b.blockno) = s.key i)
      (zero : b.refcnt = 0 → (s.buf i).refcnt = 0) (links : s'.links = s.links)
  | drop (i : Index) (b : Buf) (buf : s'.buf = update s.buf i b)
      (key : (b.dev, b.blockno) = s.key i) (some : (s.buf i).refcnt ≠ 0) (zero : b.refcnt = 0)
      (links : s'.links = (s.links.unlink (.buf i)).push .head (.buf i))

variable {s' : State}

theorem Effect.same (buf : s'.buf = s.buf) (links : s'.links = s.links) : Effect s s' :=
  .keep 0 _ (buf.trans (update_eq_self 0 s.buf).symm) (fun _ => rfl) id links

theorem Inv.effect (h : Inv s) (hs : Bcache.step l s = some s') : Effect s s' := by
  unfold Bcache.step at hs
  split at hs
  · cases hs
  cases l with
  | bget p dev blockno =>
    obtain ⟨-, hs⟩ := Option.ite_none_right_eq_some.mp hs
    obtain ⟨xs, listed⟩ := h.listed
    rcases bget_cases listed p dev blockno with
      ⟨j, key, eq⟩ | ⟨miss, ⟨j, zero, -, eq⟩ | ⟨-, eq⟩⟩ <;> rw [eq] at hs <;> cases hs
    · exact .keep j _ rfl (fun _ => rfl) (fun zero => absurd zero (h.add_one_ne_zero j)) rfl
    · exact .keep j _ rfl (fun used => absurd zero used) nofun rfl
    · exact .same rfl rfl
  | acquire p =>
    dsimp only at hs
    split at hs
    next j at_ =>
      obtain ⟨-, rfl⟩ := guarded hs
      exact .keep j _ rfl (fun _ => rfl) id rfl
    next => cases hs
  | fill p =>
    dsimp only at hs
    split at hs
    next j at_ =>
      cases hs
      exact .keep j _ rfl (fun _ => rfl) id rfl
    next => cases hs
  | releasesleep p j =>
    obtain ⟨-, rfl⟩ := guarded hs
    unfold State.releasesleep
    split
    · exact .same rfl rfl
    · exact .keep j _ rfl (fun _ => rfl) id rfl
  | brelse p =>
    dsimp only at hs
    split at hs
    next j at_ =>
      cases hs
      have some : (s.buf j).refcnt ≠ 0 := h.refcnt_ne_zero (refs_pos (p := p) (by
        rw [at_, refs_release, if_pos rfl, Buf.locks]; split <;> decide))
      unfold State.brelse
      dsimp only
      split
      next zero => exact .drop j _ rfl rfl some zero rfl
      next more => exact .keep j _ rfl (fun _ => rfl) (fun zero => absurd zero more) rfl
    next => cases hs
  | bpin p j =>
    obtain ⟨-, rfl⟩ := guarded hs
    exact .keep j _ rfl (fun _ => rfl) (fun zero => absurd zero (h.add_one_ne_zero j)) rfl
  | bunpin p j =>
    obtain ⟨⟨-, lock, old⟩, rfl⟩ := guarded hs
    refine .keep j _ rfl (fun _ => rfl) (fun zero => ?_) rfl
    -- the one who unpins the buffer has a reference to it
    have less := refcnt_sub_one (h.held lock).2.1
    replace zero : (s.buf j).refcnt - 1 = 0 := zero
    rw [zero, h.count, h.pins, if_pos old] at less
    have pos := (h.held lock).1
    replace less : (0 : Int) = s.refs j + 1 - 1 := less
    omega

/-- A step changes the block of a buffer only if nothing refers to the buffer. -/
theorem Inv.key_step (h : Inv s) (hs : Bcache.step l s = some s') (i : Index)
    (used : (s.buf i).refcnt ≠ 0) : s'.key i = s.key i := by
  have set : ∀ {j b}, s'.buf = update s.buf j b →
      ((s.buf j).refcnt ≠ 0 → (b.dev, b.blockno) = s.key j) → s'.key i = s.key i := by
    intro j b buf key
    rw [State.key, buf]
    by_cases hij : i = j
    · subst hij
      rw [update_self, key used]
    · rw [update_of_ne hij, State.key]
  cases h.effect hs with
  | keep j b buf key => exact set buf key
  | drop j b buf key => exact set buf fun _ => key

/-- In every run that asks for no block of device 0, the links form one circular list of the head
and all buffers, no two buffers stand for one block, a reference count is the number of holders,
waiters and pins, and a buffer whose count is not 0 keeps its block. -/
theorem bcache_structure {L : Links Node} {s : State} (run : Reach step OnDevice (boot L) s) :
    (∃ xs : List Index, Circular s.links .head (xs.map .buf) ∧ xs.Perm (List.finRange nbuf)) ∧
    (∀ p dev blockno, (s.bget p dev blockno).isSome) ∧
    (∀ i j, (s.buf i).dev ≠ 0 → s.key i = s.key j → i = j) ∧
    (∀ i, ((s.buf i).refcnt.toNat : Int) = s.holders i + s.waiters i + s.pins i) ∧
    ∀ l s' i, step l s = some s' → (s.buf i).refcnt ≠ 0 → s'.key i = s.key i := by
  have inv : Inv s := run.invariant (I := Inv) (boot_inv L) fun _ _ _ h ok hs => h.step ok hs
  obtain ⟨xs, listed⟩ := inv.listed
  refine ⟨⟨xs, listed.1, listed.perm⟩, fun p dev blockno => ?_, inv.unique, inv.refcnt,
    fun l s' i hs used => inv.key_step hs i used⟩
  rcases Inv.bget_cases listed p dev blockno with
    ⟨i, key, eq⟩ | ⟨miss, ⟨i, zero, -, eq⟩ | ⟨-, eq⟩⟩ <;> rw [eq] <;> rfl

/-- A process reads two blocks and logs one of them, for which another process waits. -/
def readsAndLogs : List Label :=
  [.bget 0 1 5, .acquire 0, .fill 0, .bpin 0 0, .bget 1 1 5, .bget 0 1 6, .acquire 0, .fill 0,
    .releasesleep 0 1, .brelse 0]

theorem bcache_structure_waiter : ∃ s : State,
    Reach step OnDevice (boot ⟨fun _ => .head, fun _ => .head⟩) s ∧
    (s.buf 0).refcnt = 3 ∧ s.holders 0 + s.waiters 0 + s.pins 0 = 3 ∧
    s.links.next .head = .buf 1 := by
  obtain ⟨s, reach, refcnt, first⟩ : ∃ s : State,
      Reach step OnDevice (boot ⟨fun _ => .head, fun _ => .head⟩) s ∧
      (s.buf 0).refcnt = 3 ∧ s.links.next .head = .buf 1 :=
    exists_reach step OnDevice (boot _) readsAndLogs
      (P := fun s : State => (s.buf 0).refcnt = 3 ∧ s.links.next .head = .buf 1) (by decide +kernel)
  have count := (bcache_structure reach).2.2.2.1 0
  rw [refcnt] at count
  exact ⟨s, reach, refcnt, count.symm, first⟩

/-- The cache with the number of steps so far, and for each buffer the step that last dropped its
count to 0, or 0. -/
structure Record where
  cache : State
  now : Nat
  dropped : Index → Nat

namespace Record

def boot (L : Links Node) : Record := ⟨Bcache.boot L, 0, fun _ => 0⟩

/-- The record after a step to the state `s`. -/
def next (r : Record) (s : State) : Record where
  cache := s
  now := r.now + 1
  dropped i :=
    if (r.cache.buf i).refcnt ≠ 0 ∧ (s.buf i).refcnt = 0 then r.now + 1 else r.dropped i

def step (l : Label) (r : Record) : Option Record := (Bcache.step l r.cache).map r.next

/-- If both buffers are unused, the count of `i` was dropped to 0 after that of `j`. -/
def Later (r : Record) (i j : Index) : Prop :=
  (r.cache.buf i).refcnt = 0 → (r.cache.buf j).refcnt = 0 → r.dropped j ≤ r.dropped i

theorem later_next {r : Record} (order : xs.Pairwise r.Later)
    (old : ∀ i ∈ xs, (s.buf i).refcnt = 0 → (r.cache.buf i).refcnt = 0) :
    xs.Pairwise (r.next s).Later := by
  refine order.imp_of_mem fun {i j} hi hj later zi zj => ?_
  have same : ∀ i ∈ xs, (r.next s).dropped i = r.dropped i := fun i hi =>
    if_neg fun both => both.1 (old i hi both.2)
  rw [same i hi, same j hj]
  exact later (old i hi zi) (old j hj zj)

end Record

/-- The unused buffers stand in the list in the order in which they were dropped, the last first. -/
structure Recent (r : Record) : Prop where
  inv : Inv r.cache
  order : ∃ xs, Listed r.cache xs ∧ xs.Pairwise r.Later
  past : ∀ i, r.dropped i ≤ r.now

theorem Recent.step {r r' : Record} (h : Recent r) (ok : OnDevice r.cache l)
    (hr : r.step l = some r') : Recent r' := by
  obtain ⟨s, hs, rfl⟩ := Option.map_eq_some_iff.mp hr
  have past : ∀ i, (r.next s).dropped i ≤ r.now + 1 := by
    intro i
    unfold Record.next
    dsimp only
    split
    · exact le_rfl
    · exact (h.past i).trans (Nat.le_succ _)
  refine ⟨h.inv.step ok hs, ?_, past⟩
  obtain ⟨xs, listed, order⟩ := h.order
  cases h.inv.effect hs with
  | keep i b buf key zero links =>
    refine ⟨xs, ⟨links ▸ listed.1, listed.2⟩, Record.later_next order fun j _ hj => ?_⟩
    rw [buf] at hj
    by_cases hji : j = i
    · rw [hji, update_self] at hj
      rw [hji]
      exact zero hj
    · rwa [update_of_ne hji] at hj
  | drop i b buf key some zero links =>
    have moved := Inv.listed_move listed i s.buf s.pc
    rw [← links] at moved
    refine ⟨i :: xs.erase i, moved, pairwise_cons.mpr ⟨fun j _ _ _ => ?_, ?_⟩⟩
    · have last : (r.next s).dropped i = r.now + 1 := if_pos ⟨some, by rw [buf, update_self, zero]⟩
      rw [last]
      exact past j
    · have nodup : xs.Nodup := listed.perm.nodup_iff.mpr (nodup_finRange nbuf)
      refine Record.later_next (order.sublist erase_sublist) fun j hj zero => ?_
      rwa [buf, update_of_ne (nodup.mem_erase_iff.mp hj).1] at zero

/-- In every run that asks for no block of device 0, a `bget` that misses takes the unused buffer
whose count dropped to 0 longest ago, or one never in use. -/
theorem bget_takes_oldest {L : Links Node} {r : Record}
    (run : Reach Record.step (fun r => OnDevice r.cache) (.boot L) r) (p : Process)
    {dev blockno : UInt32} (miss : ∀ i, r.cache.key i ≠ (dev, blockno))
    (unused : ∃ i, (r.cache.buf i).refcnt = 0) :
    ∃ i, (r.cache.buf i).refcnt = 0 ∧
      (∀ j, (r.cache.buf j).refcnt = 0 → r.dropped i ≤ r.dropped j) ∧
      r.cache.bget p dev blockno = some ((r.cache.setBuf i { r.cache.buf i with
        dev := dev, blockno := blockno, valid := false, refcnt := 1 }).setPc p (.acquire i)) := by
  have recent : Recent r := by
    refine run.invariant ⟨boot_inv L, ?_, fun _ => le_rfl⟩ fun _ _ _ h ok hs => h.step ok hs
    obtain ⟨xs, listed⟩ := (boot_inv L).listed
    exact ⟨xs, listed, pairwise_of_forall fun _ _ _ _ => le_rfl⟩
  obtain ⟨xs, listed, order⟩ := recent.order
  rcases Inv.bget_cases listed p dev blockno with
    ⟨i, key, -⟩ | ⟨-, ⟨i, zero, ⟨as, bs, split, used⟩, eq⟩ | ⟨none, -⟩⟩
  · exact absurd key (miss i)
  · refine ⟨i, zero, fun j hj => ?_, eq⟩
    have mem : j ∈ as ++ i :: bs := split ▸ mem_reverse.mpr (listed.2 j)
    rw [← pairwise_reverse, split, pairwise_append] at order
    rcases mem_append.mp mem with before | after
    · exact absurd hj (used j before)
    · rcases mem_cons.mp after with rfl | after
      · exact le_rfl
      · exact (pairwise_cons.mp order.2.1).1 j after hj zero
  · obtain ⟨i, zero⟩ := unused
    exact absurd zero (none i)

/-- After two blocks were read and given up, the next one goes to a buffer that was never in use. -/
theorem bget_takes_oldest_third : ∃ (r : Record) (i : Index), r.dropped 0 = 5 ∧ r.dropped 1 = 10 ∧
    r.dropped i = 0 ∧ r.cache.bget 0 1 7 = some ((r.cache.setBuf i { r.cache.buf i with
      dev := 1, blockno := 7, valid := false, refcnt := 1 }).setPc 0 (.acquire i)) := by
  obtain ⟨r, run, first, second, miss, zero, never⟩ :=
    exists_reach Record.step (fun r => OnDevice r.cache) (.boot ⟨fun _ => .head, fun _ => .head⟩)
      [.bget 0 1 5, .acquire 0, .fill 0, .releasesleep 0 0, .brelse 0,
        .bget 0 1 6, .acquire 0, .fill 0, .releasesleep 0 1, .brelse 0]
      (P := fun r : Record => r.dropped 0 = 5 ∧ r.dropped 1 = 10 ∧
        (∀ i, r.cache.key i ≠ (1, 7)) ∧ (r.cache.buf 2).refcnt = 0 ∧ r.dropped 2 = 0)
      (by decide +kernel)
  obtain ⟨i, -, oldest, eq⟩ := bget_takes_oldest run 0 miss ⟨2, zero⟩
  exact ⟨r, i, first, second, Nat.le_zero.mp (never ▸ oldest 2 zero), eq⟩

end Xv6.Bcache
