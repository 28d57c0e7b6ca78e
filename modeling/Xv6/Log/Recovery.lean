import Xv6.Log.Sections

/-! Crash safety of the log. At every point the disk alone determines the home blocks after all
transactions whose header reached it, and `recover_from_log` may stop at any of its writes and start
again. -/

namespace Xv6.Log

open Transition Function List

variable {g : Geometry} {s s' : State} {l : Label} {d home : Disk} {b : Nat}

/-! The header block. -/

theorem get32_writeHeadBlocks_before (ns : List UInt32) (b : Block) (i off : Nat)
    (h : off ≤ 4 * i) : Bytes.get32 (writeHeadBlocks b i ns) off = Bytes.get32 b off := by
  induction ns generalizing b i with
  | nil => rfl
  | cons n ns ih =>
    rw [writeHeadBlocks, ih _ _ (by omega), Bytes.get32_set32_disjoint (by omega)]

theorem get32_writeHeadBlocks (ns : List UInt32) (b : Block) (i k : Nat) (n : UInt32)
    (fits : i + ns.length ≤ logSize) (get : ns[k]? = some n) :
    Bytes.get32 (writeHeadBlocks b i ns) (4 + 4 * (i + k)) = n := by
  induction ns generalizing b i k with
  | nil => simp at get
  | cons m ns ih =>
    simp only [logSize, maxOpBlocks, length_cons] at fits
    cases k with
    | zero =>
      simp only [List.getElem?_cons_zero, Option.some.injEq] at get
      rw [writeHeadBlocks, get32_writeHeadBlocks_before _ _ _ _ (by omega), add_zero, get,
        Bytes.get32_set32_same (by simp only [bsize]; omega)]
    | succ k =>
      rw [writeHeadBlocks, show 4 + 4 * (i + (k + 1)) = 4 + 4 * (i + 1 + k) by omega]
      exact ih _ (i + 1) k (by simp only [logSize, maxOpBlocks]; omega) (by simpa using get)

theorem get32_writeHead_zero (lh : List UInt32) (b : Block) :
    Bytes.get32 (writeHead lh b) 0 = UInt32.ofNat lh.length := by
  rw [writeHead, get32_writeHeadBlocks_before _ _ _ _ (by omega),
    Bytes.get32_set32_same (by decide)]

theorem readHead_writeHead (fits : lh.length ≤ logSize) (b : Block) :
    readHead (writeHead lh b) = lh := by
  simp only [logSize, maxOpBlocks] at fits
  have count : (asInt (Bytes.get32 (writeHead lh b) 0)).toNat = lh.length := by
    rw [get32_writeHead_zero, asInt, UInt32.toNat_ofNat_of_lt' (by simp [UInt32.size]; omega),
      if_pos (by omega)]
    simp
  rw [readHead, count]
  refine ext_getElem (by simp) fun i _ hi => ?_
  rw [getElem_map, getElem_range]
  have := get32_writeHeadBlocks lh (Bytes.set32 b 0 (UInt32.ofNat lh.length)) 0 i lh[i]
    (by simp only [logSize, maxOpBlocks]; omega) (List.getElem?_eq_getElem hi)
  rwa [zero_add] at this

/-! Transactions on an ideal disk. -/

def apply (d : Disk) (tx : Tx) : Disk := tx.foldl (fun d w => update d w.1 w.2) d

def replay (d : Disk) (txs : List Tx) : Disk := txs.foldl apply d

theorem apply_map (lh : List UInt32) (d contents : Disk) (b : Nat) :
    apply d (lh.map fun n => (n.toNat, contents n.toNat)) b =
      if b ∈ lh.map UInt32.toNat then contents b else d b := by
  induction lh generalizing d with
  | nil => simp [apply]
  | cons n lh ih =>
    simp only [apply, map_cons, foldl_cons] at ih ⊢
    rw [ih]
    by_cases hb : b ∈ lh.map UInt32.toNat
    · rw [if_pos hb, if_pos (mem_cons_of_mem _ hb)]
    · rw [if_neg hb]
      by_cases e : b = n.toNat
      · subst e; simp
      · rw [update_of_ne e, if_neg (by simp only [mem_cons, e, hb, or_self,
          not_false_eq_true])]

theorem apply_of_notMem (h : b ∉ tx.map Prod.fst) : apply d tx b = d b := by
  induction tx generalizing d with
  | nil => rfl
  | cons w tx ih =>
    simp only [map_cons, mem_cons, not_or] at h
    rw [apply, foldl_cons]
    exact (ih h.2).trans (update_of_ne h.1 _ _)

theorem replay_of_notMem (h : ∀ tx ∈ txs, b ∉ tx.map Prod.fst) : replay d txs b = d b := by
  induction txs generalizing d with
  | nil => rfl
  | cons tx txs ih =>
    rw [replay, foldl_cons]
    exact (ih fun t ht => h t (mem_cons_of_mem _ ht)).trans
      (apply_of_notMem (h tx mem_cons_self))

theorem replay_concat (d : Disk) (txs : List Tx) (tx : Tx) :
    replay d (txs ++ [tx]) = apply (replay d txs) tx := by
  simp [replay]

/-! What the disk must hold at every moment. -/

theorem Geometry.region_start (g : Geometry) : g.Region g.start :=
  ⟨Nat.le_refl _, Nat.lt_add_of_pos_right g.header⟩

theorem Geometry.region_log {i : Nat} (g : Geometry) (h : (i : Int) < (g.size : Int) - 1) :
    g.Region (g.start + i + 1) := ⟨by omega, by omega⟩

theorem update_log (hx : g.Region x) (hb : ¬g.Region b) : update d x v b = d b :=
  update_of_ne (fun e => hb (by rwa [e])) v d

theorem update_home (hb : ¬g.Region b) (hx : g.Region x) : update d b v x = d x :=
  update_of_ne (fun e => hb (by rwa [← e])) v d

/-- A crash now is harmless: what the header names is outside the log with its contents in the log,
and all other home blocks are in place. -/
structure Recoverable (g : Geometry) (d home : Disk) : Prop where
  fits : ((readHead (d g.start)).length : Int) ≤ (g.size : Int) - 1
  away : ∀ b ∈ readHead (d g.start), ¬g.Region b.toNat
  logged : ∀ i b, (readHead (d g.start))[i]? = some b → d (g.start + i + 1) = home b.toNat
  rest : ∀ b, ¬g.Region b → b ∉ (readHead (d g.start)).map UInt32.toNat → d b = home b

theorem Recoverable.of_empty (empty : readHead (d g.start) = [])
    (rest : ∀ b, ¬g.Region b → d b = home b) : Recoverable g d home where
  fits := by have := g.header; simp only [empty, length_nil]; omega
  away := by simp [empty]
  logged := by simp [empty]
  rest b hb _ := rest b hb

section

variable (h : Recoverable g d home)

include h

theorem Recoverable.in_place (empty : readHead (d g.start) = []) (b : Nat) (hb : ¬g.Region b) :
    d b = home b := h.rest b hb (by simp [empty])
theorem Recoverable.log_block {b : UInt32} (get : (readHead (d g.start))[i]? = some b) :
    g.Region (g.start + i + 1) ∧ d (g.start + i + 1) = home b.toNat ∧ ¬g.Region b.toNat := by
  obtain ⟨lt, rfl⟩ := List.getElem?_eq_some_iff.mp get
  have := h.fits
  exact ⟨g.region_log (by omega), h.logged i _ get, h.away _ (getElem_mem _)⟩

theorem Recoverable.set_home (hb : ¬g.Region b) : Recoverable g (update d b (home b)) home := by
  have head : update d b (home b) g.start = d g.start := update_home hb g.region_start
  refine ⟨by rw [head]; exact h.fits, by rw [head]; exact h.away, fun i n get => ?_,
    fun x hx hn => ?_⟩
  · rw [head] at get
    obtain ⟨region, eq, _⟩ := h.log_block get
    rw [update_home hb region, eq]
  · rw [head] at hn
    by_cases e : x = b
    · subst e; simp
    · rw [update_of_ne e]; exact h.rest x hx hn

theorem Recoverable.set_log (empty : readHead (d g.start) = []) {i : Nat}
    (hi : (i : Int) < (g.size : Int) - 1) (v : Block) :
    Recoverable g (update d (g.start + i + 1) v) home := by
  refine .of_empty (by rwa [update_of_ne (by omega)]) fun b hb => ?_
  rw [update_log (g.region_log hi) hb]
  exact h.in_place empty b hb

/-- The commit point: with the contents in the log, writing the header makes the transaction
durable. -/
theorem Recoverable.commit (empty : readHead (d g.start) = []) {contents : Disk}
    (fits : lh.length ≤ logSize) (room : (lh.length : Int) ≤ (g.size : Int) - 1)
    (away : ∀ b ∈ lh, ¬g.Region b.toNat)
    (copied : ∀ i b, lh[i]? = some b → d (g.start + i + 1) = contents b.toNat) (old : Block) :
    Recoverable g (update d g.start (writeHead lh old))
      (apply home (lh.map fun n => (n.toNat, contents n.toNat))) := by
  have head : readHead (update d g.start (writeHead lh old) g.start) = lh := by
    rw [update_self, readHead_writeHead fits]
  refine ⟨by rwa [head], by rwa [head], fun i b get => ?_,
    fun b hb hn => ?_⟩
  · rw [head] at get
    rw [update_of_ne (by omega), copied i b get, apply_map,
      if_pos (mem_map_of_mem (mem_of_getElem? get))]
  · rw [head] at hn
    rw [update_log g.region_start hb, apply_map, if_neg hn]
    exact h.in_place empty b hb

end

theorem Recoverable.clear (placed : ∀ b, ¬g.Region b → d b = home b) (old : Block) :
    Recoverable g (update d g.start (writeHead [] old)) home := by
  refine .of_empty ?_ fun b hb => ?_
  · rw [update_self, readHead_writeHead (by simp)]
  · rw [update_log g.region_start hb]
    exact placed b hb

/-! The invariant over runs. -/

/-- What a commit that has come to a given place has on the disk. -/
def CommitHolds (g : Geometry) (home : Disk) (s : State) : CommitPc → Prop
  | .test | .done => readHead (s.disk g.start) = []
  | .writeLog tail => readHead (s.disk g.start) = [] ∧
    ∀ i < tail, ∀ b, s.lh[i]? = some b → s.disk (g.start + i + 1) = s.bread b.toNat
  | .writeHead => readHead (s.disk g.start) = [] ∧
    ∀ i b, s.lh[i]? = some b → s.disk (g.start + i + 1) = s.bread b.toNat
  | .install tail => readHead (s.disk g.start) = s.lh ∧
    ∀ i < tail, ∀ b, s.lh[i]? = some b → s.disk b.toNat = home b.toNat
  | .clear => ∀ b, ¬g.Region b → s.disk b = home b
  | .clearHead => s.lh = [] ∧ ∀ b, ¬g.Region b → s.disk b = home b

/-- What a recovery that has come to a given place has on the disk. -/
def RecoverHolds (g : Geometry) (home : Disk) (s : State) : Mode → Prop
  | .readHead | .up => True
  | .install tail => readHead (s.disk g.start) = s.lh ∧
    ∀ i < tail, ∀ b, s.lh[i]? = some b → s.disk b.toNat = home b.toNat
  | .clearHead => s.lh = [] ∧ ∀ b, ¬g.Region b → s.disk b = home b

/-- The disk is recoverable to the durable transactions, the log blocks in memory agree with it, and
the commit or recovery in progress has done what its place says. -/
structure Safe (g : Geometry) (d₀ : Disk) (s : State) : Prop where
  recoverable : Recoverable g s.disk (replay d₀ s.durable)
  cached : ∀ b, g.Region b → s.bread b = s.disk b
  fits : s.mode = .up → s.lh.length ≤ logSize ∧ (s.lh.length : Int) ≤ (g.size : Int) - 1
  away : s.mode = .up → ∀ b ∈ s.lh, ¬g.Region b.toNat
  quiet : s.mode = .up → s.committing = false → readHead (s.disk g.start) = []
  phase : s.mode = .up → ∀ p c, s.proc p = .commit c → CommitHolds g (replay d₀ s.durable) s c
  recovering : RecoverHolds g (replay d₀ s.durable) s s.mode
  alive : s.mode ≠ .up → s.panicked = none

variable {d₀ : Disk} {p : Pid} {c0 : CommitPc}

theorem Safe.boot
    (h : Recoverable g d (replay d₀ durable)) : Safe g d₀ (State.boot d durable closed) where
  recoverable := h
  cached _ _ := rfl
  fits e := by cases e
  away e := by cases e
  quiet e := by cases e
  phase e := by cases e
  recovering := trivial
  alive _ := rfl

theorem Safe.move (h : Safe g d₀ s) (up : s.mode = .up) (disk : s'.disk = s.disk)
    (bread : s'.bread = s.bread) (mode : s'.mode = s.mode) (lh : s'.lh = s.lh)
    (durable : s'.durable = s.durable)
    (quiet : s'.committing = false → readHead (s.disk g.start) = [])
    (phase : ∀ p c, s'.proc p = .commit c → CommitHolds g (replay d₀ s.durable) s c) :
    Safe g d₀ s' := by
  have up' : s'.mode = .up := mode.trans up
  refine ⟨?_, ?_, fun _ => ?_, fun _ => ?_, fun _ hc => ?_, fun _ p c hp => ?_, ?_,
    fun hm => absurd up' hm⟩
  · rw [disk, durable]; exact h.recoverable
  · rw [disk, bread]; exact h.cached
  · rw [lh]; exact h.fits up
  · rw [lh]; exact h.away up
  · rw [disk]; exact quiet hc
  · have := phase p c hp
    rw [durable]
    cases c <;> simpa only [CommitHolds, disk, bread, lh] using this
  · rw [up']; trivial

theorem Protocol.only (h : Protocol s) (at_ : s.proc p = .commit c0) (q : Pid) (c : CommitPc)
    (hq : update s.proc p pc q = .commit c) : pc = .commit c := by
  by_cases e : q = p
  · subst e; simpa using hq
  · rw [update_of_ne e] at hq
    exact absurd (h.unique q p c c0 hq at_) e

theorem Safe.commitTo (h : Safe g d₀ s) (pr : Protocol s) (up : s.mode = .up)
    (at_ : s.proc p = .commit c0) (proc : s'.proc = update s.proc p (.commit c))
    (mode : s'.mode = s.mode) (committing : s'.committing = s.committing)
    (lh : ∀ b ∈ s'.lh, b ∈ s.lh) (length : s'.lh.length ≤ s.lh.length)
    (recoverable : Recoverable g s'.disk (replay d₀ s'.durable))
    (cached : ∀ b, g.Region b → s'.bread b = s'.disk b)
    (phase : CommitHolds g (replay d₀ s'.durable) s' c) : Safe g d₀ s' := by
  have up' : s'.mode = .up := mode.trans up
  refine ⟨recoverable, cached, fun _ => ?_, fun _ b hb => h.away up b (lh b hb), fun _ hc => ?_,
    fun _ q c' hq => ?_, (by rw [up']; trivial), fun hm => absurd up' hm⟩
  · have := h.fits up; omega
  · rw [committing, pr.committer p c0 at_] at hc; cases hc
  · rw [proc] at hq
    cases pr.only at_ q c' hq
    exact phase

theorem Safe.commitMove (h : Safe g d₀ s) (pr : Protocol s) (up : s.mode = .up)
    (at_ : s.proc p = .commit c0)
    (phase : CommitHolds g (replay d₀ s.durable) s c) : Safe g d₀ (s.setProc p (.commit c)) := by
  refine h.commitTo pr up at_ rfl rfl rfl (fun _ => id) (Nat.le_refl _) h.recoverable h.cached ?_
  cases c <;> exact phase

theorem cached_bwrite (h : ∀ b, g.Region b → s.bread b = s.disk b) (x : Nat) (v : Block) (b : Nat)
    (hb : g.Region b) : (s.bwrite x v).bread b = (s.bwrite x v).disk b := by
  simp only [State.bwrite, update_apply]
  split
  · rfl
  · exact h b hb

section

variable (h : Safe g d₀ s) {tail : Nat}

include h

theorem Safe.writeLog (pr : Protocol s) (up : s.mode = .up)
    (at_ : s.proc p = .commit (.writeLog tail)) (get : s.lh[tail]? = some n) :
    Safe g d₀ ((s.bwrite (g.start + tail + 1) (s.bread n.toNat)).setProc p
      (.commit (.writeLog (tail + 1)))) := by
  obtain ⟨empty, copied⟩ := h.phase up p _ at_
  obtain ⟨lt, rfl⟩ := List.getElem?_eq_some_iff.mp get
  have room : (tail : Int) < (g.size : Int) - 1 := by have := h.fits up; omega
  refine h.commitTo pr up at_ rfl rfl rfl (fun _ => id) (Nat.le_refl _)
    (h.recoverable.set_log empty room _) (cached_bwrite h.cached _ _) ⟨?_, fun i hi b hget => ?_⟩
  · show readHead (update s.disk _ _ g.start) = []
    rwa [update_of_ne (by omega)]
  · show update s.disk _ _ _ = update s.bread _ _ _
    have hb : ¬g.Region b.toNat := h.away up b (mem_of_getElem? hget)
    rw [update_log (g.region_log room) hb]
    by_cases e : i = tail
    · subst e
      cases Option.some.inj (get.symm.trans hget)
      simp
    · rw [update_of_ne (by omega)]
      exact copied i (by omega) b hget

theorem Safe.writeHead (pr : Protocol s) (up : s.mode = .up) (at_ : s.proc p = .commit .writeHead) :
    Safe g d₀ { (s.bwrite g.start (writeHead s.lh (s.bread g.start))).setProc p
        (.commit (.install 0)) with
      durable := s.durable ++ [s.tx] } := by
  obtain ⟨empty, copied⟩ := h.phase up p _ at_
  obtain ⟨fits, room⟩ := h.fits up
  refine h.commitTo pr up at_ rfl rfl rfl (fun _ => id) (Nat.le_refl _) ?_
    (cached_bwrite h.cached _ _) ⟨?_, fun i hi => absurd hi (Nat.not_lt_zero i)⟩
  · rw [replay_concat]
    exact h.recoverable.commit empty fits room (h.away up) copied _
  · show readHead (update s.disk _ _ g.start) = s.lh
    rw [update_self, readHead_writeHead fits]

theorem installBlock_holds {n : UInt32} (head : readHead (s.disk g.start) = s.lh)
    (get : s.lh[tail]? = some n)
    (placed : ∀ i < tail, ∀ b, s.lh[i]? = some b → s.disk b.toNat = replay d₀ s.durable b.toNat) :
    Recoverable g (installBlock g s tail n).disk (replay d₀ s.durable) ∧
      readHead ((installBlock g s tail n).disk g.start) = s.lh ∧
      ∀ i < tail + 1, ∀ b, s.lh[i]? = some b →
        (installBlock g s tail n).disk b.toNat = replay d₀ s.durable b.toNat := by
  obtain ⟨region, contents, hn⟩ := h.recoverable.log_block (head ▸ get)
  have disk : (installBlock g s tail n).disk =
      update s.disk n.toNat (replay d₀ s.durable n.toNat) := by
    simp only [installBlock, State.bwrite, h.cached _ region, contents]
  rw [disk]
  refine ⟨h.recoverable.set_home hn, ?_, fun i hi b hget => ?_⟩
  · rw [update_home hn g.region_start, head]
  · by_cases e : b.toNat = n.toNat
    · rw [e, update_self]
    · have : i ≠ tail := by
        rintro rfl
        exact e (by rw [Option.some.inj (hget.symm.trans get)])
      rw [update_of_ne e]
      exact placed i (by omega) b hget

theorem installed (head : readHead (s.disk g.start) = s.lh) (get : s.lh[tail]? = none)
    (placed : ∀ i < tail, ∀ b, s.lh[i]? = some b → s.disk b.toNat = replay d₀ s.durable b.toNat)
    (b : Nat) (hb : ¬g.Region b) : s.disk b = replay d₀ s.durable b := by
  by_cases mem : b ∈ s.lh.map UInt32.toNat
  · obtain ⟨n, hn, rfl⟩ := mem_map.mp mem
    obtain ⟨i, hi, rfl⟩ := mem_iff_getElem.mp hn
    have := List.getElem?_eq_none_iff.mp get
    exact placed i (by omega) _ (List.getElem?_eq_getElem hi)
  · exact h.recoverable.rest b hb (head ▸ mem)

def HomeOnly (g : Geometry) (_ : State) : Label → Prop
  | .logWrite _ b _ => ¬g.Region b.toNat
  | _ => True

theorem Safe.log (pr : Protocol s) {b : UInt32} (up : s.mode = .up)
    (room : s.lh.length < logSize ∧ (s.lh.length : Int) < (g.size : Int) - 1)
    (some_ : 1 ≤ s.outstanding) (hb : ¬g.Region b.toNat) : Safe g d₀ { s with
      bread := update s.bread b.toNat data
      lh := if b ∈ s.lh then s.lh else s.lh ++ [b]
      wrote := wrote } := by
  refine ⟨h.recoverable, fun x hx => ?_, fun _ => ?_, fun _ n hn => ?_, h.quiet, fun _ q c hq => ?_,
    (by show RecoverHolds _ _ _ s.mode; rw [up]; trivial), h.alive⟩
  · exact (update_home hb hx).trans (h.cached x hx)
  · show (if b ∈ s.lh then s.lh else s.lh ++ [b]).length ≤ logSize ∧
      ((if b ∈ s.lh then s.lh else s.lh ++ [b]).length : Int) ≤ (g.size : Int) - 1
    split
    · omega
    · simp only [length_append, length_cons, length_nil]
      omega
  · have hn : n ∈ if b ∈ s.lh then s.lh else s.lh ++ [b] := hn
    split at hn
    · exact h.away up n hn
    · rcases mem_append.mp hn with hn | hn
      · exact h.away up n hn
      · rwa [mem_singleton.mp hn]
  · have := pr.commit_outstanding hq
    omega

theorem Safe.effect (pr : Protocol s) (ok : HomeOnly g s l) (eff : Effect g s l s') :
    Safe g d₀ s' := by
  cases eff with
  | crash => exact Safe.boot h.recoverable
  | @sleep p up | @enter p up | @endOther p up =>
    refine h.move up rfl rfl rfl rfl rfl (h.quiet up) fun q c hq => h.phase up q c ?_
    by_cases e : q = p
    · subst e; simp at hq
    · simpa [e] using hq
  | tooBig up | outside up => exact h.move up rfl rfl rfl rfl rfl (h.quiet up) (h.phase up)
  | log up at_ room some_ => exact h.log pr up room some_ ok
  | endPanic up at_ busy => exact absurd at_ (pr.exclusive busy _)
  | @endLast p up at_ quiet =>
    refine h.move up rfl rfl rfl rfl rfl (fun hc => (by cases hc)) fun q c hq => ?_
    by_cases e : q = p
    · subst e
      have : CommitPc.test = c := by simpa using hq
      subst this
      exact h.quiet up quiet
    · have := pr.committer q c (by simpa [e] using hq)
      rw [quiet] at this
      cases this
  | testSome up at_ =>
    exact h.commitMove pr up at_ ⟨h.phase up _ _ at_, fun i hi => absurd hi (Nat.not_lt_zero i)⟩
  | testNone up at_ =>
    have empty : readHead (s.disk g.start) = [] := h.phase up _ _ at_
    exact h.commitMove pr up at_ empty
  | writeLog up at_ get => exact h.writeLog pr up at_ get
  | writeLogEnd up at_ get =>
    obtain ⟨empty, copied⟩ := h.phase up _ _ at_
    refine h.commitMove pr up at_ ⟨empty, fun i b hget => copied i ?_ b hget⟩
    have := List.getElem?_eq_none_iff.mp get
    have := (List.getElem?_eq_some_iff.mp hget).1
    omega
  | writeHead up at_ => exact h.writeHead pr up at_
  | install up at_ get =>
    obtain ⟨head, placed⟩ := h.phase up _ _ at_
    obtain ⟨rec, head', placed'⟩ := installBlock_holds h head get placed
    exact h.commitTo pr up at_ rfl rfl rfl (fun _ => id) (Nat.le_refl _) rec
      (cached_bwrite h.cached _ _) ⟨head', placed'⟩
  | installEnd up at_ get =>
    obtain ⟨head, placed⟩ := h.phase up _ _ at_
    exact h.commitMove pr up at_ (installed h head get placed)
  | clear up at_ =>
    exact h.commitTo pr up at_ rfl rfl rfl (fun b hb => (by simp at hb)) (Nat.zero_le _)
      h.recoverable h.cached ⟨rfl, h.phase up _ _ at_⟩
  | clearHead up at_ =>
    obtain ⟨empty, placed⟩ := h.phase up _ _ at_
    rw [empty]
    refine h.commitTo pr up at_ rfl rfl rfl (fun _ => id) (Nat.le_refl _)
      (Recoverable.clear placed _) (cached_bwrite h.cached _ _) ?_
    show readHead (update s.disk _ _ g.start) = []
    rw [update_self, readHead_writeHead (by simp)]
  | @done p up at_ =>
    have empty : readHead (s.disk g.start) = [] := h.phase up _ _ at_
    refine h.move up rfl rfl rfl rfl rfl (fun _ => empty) fun q c hq => ?_
    have := pr.only at_ q c hq
    cases this
  | recRead mode =>
    have off : s.mode ≠ .up := by simp [mode]
    refine ⟨h.recoverable, h.cached, fun e => (by cases e), fun e => (by cases e),
      fun e => (by cases e), fun e => (by cases e),
      ⟨?_, fun i hi => absurd hi (Nat.not_lt_zero i)⟩, fun _ => h.alive off⟩
    rw [h.cached _ g.region_start]
  | recInstall mode get =>
    have off : s.mode ≠ .up := by simp [mode]
    have holds := h.recovering
    rw [mode] at holds
    obtain ⟨rec, head', placed'⟩ := installBlock_holds h holds.1 get holds.2
    exact ⟨rec, cached_bwrite h.cached _ _, fun e => (by cases e), fun e => (by cases e),
      fun e => (by cases e), fun e => (by cases e), ⟨head', placed'⟩, fun _ => h.alive off⟩
  | recInstallEnd mode get =>
    have off : s.mode ≠ .up := by simp [mode]
    have holds := h.recovering
    rw [mode] at holds
    have placed := installed h holds.1 get holds.2
    exact ⟨h.recoverable, h.cached, fun e => (by cases e), fun e => (by cases e),
      fun e => (by cases e), fun e => (by cases e), ⟨rfl, placed⟩, fun _ => h.alive off⟩
  | recClear mode =>
    have off : s.mode ≠ .up := by simp [mode]
    have holds := h.recovering
    rw [mode] at holds
    obtain ⟨empty, placed⟩ := holds
    rw [empty]
    refine ⟨Recoverable.clear placed _, cached_bwrite h.cached _ _, fun _ => ?_, fun _ b hb => ?_,
      fun _ _ => ?_, fun _ p c hp => ?_, trivial, fun hm => absurd rfl hm⟩
    · show s.lh.length ≤ logSize ∧ (s.lh.length : Int) ≤ (g.size : Int) - 1
      have := g.header
      simp only [empty, length_nil]
      omega
    · have hb : b ∈ s.lh := hb
      simp [empty] at hb
    · show readHead (update s.disk _ _ g.start) = []
      rw [update_self, readHead_writeHead (by simp)]
    · have hp : s.proc p = .commit c := hp
      rw [pr.down off p] at hp
      cases hp

end

theorem Safe.reach (clean : readHead (d₀ g.start) = []) (run : Reach g (HomeOnly g) d₀ s) :
    Inv s ∧ Safe g d₀ s := by
  refine run.invariant (I := fun s => Inv s ∧ Safe g d₀ s)
    ⟨Inv.boot d₀, Safe.boot (.of_empty clean fun _ _ => rfl)⟩ fun s l s' ⟨inv, safe⟩ ok hs => ?_
  exact ⟨inv.step hs, safe.effect inv.protocol ok (step_effect hs).1⟩

theorem recovered (safe : Safe g d₀ s) (hs : step g .recover s = some s')
    (complete : s'.mode = .up) :
    (∀ b, ¬g.Region b → s'.disk b = replay d₀ s'.durable b) ∧
      Bytes.get32 (s'.disk g.start) 0 = 0 := by
  obtain ⟨eff, _⟩ := step_effect hs
  cases eff with
  | recRead | recInstall | recInstallEnd => cases complete
  | recClear mode =>
    have holds := safe.recovering
    rw [mode] at holds
    refine ⟨fun b hb => (update_log g.region_start hb).trans (holds.2 b hb), ?_⟩
    show Bytes.get32 (update s.disk _ _ g.start) 0 = 0
    rw [update_self, get32_writeHead_zero, holds.1]
    rfl

abbrev Recovers (g : Geometry) : State → State → Prop :=
  Transition.Reach (step g) fun _ l => l = .recover

theorem recovers_step (mid : State) (hs : step g .recover s = some mid)
    (rest : ∃ s', Recovers g mid s' ∧ s'.mode = .up) : ∃ s', Recovers g s s' ∧ s'.mode = .up := by
  obtain ⟨s', run, up⟩ := rest
  have first : Recovers g s mid := Reach.next (l := .recover) .start rfl hs
  exact ⟨s', first.trans run, up⟩

theorem recovers_clear (alive : s.panicked = none) (mode : s.mode = .clearHead) :
    ∃ s', Recovers g s s' ∧ s'.mode = .up :=
  recovers_step { s.bwrite g.start (writeHead s.lh (s.bread g.start)) with mode := .up }
    (by simp [step, recoverStep, alive, mode]) ⟨_, .start, rfl⟩

theorem recovers_install (left : Nat) : ∀ (s : State) (tail : Nat), s.panicked = none →
    s.mode = .install tail → s.lh.length - tail = left →
    ∃ s', Recovers g s s' ∧ s'.mode = .up := by
  induction left with
  | zero =>
    intro s tail alive mode hleft
    have get : s.lh[tail]? = none := List.getElem?_eq_none_iff.mpr (by omega)
    refine recovers_step { s with lh := [], mode := .clearHead } ?_
      (recovers_clear alive rfl)
    simp [step, recoverStep, alive, mode, get]
  | succ left ih =>
    intro s tail alive mode hleft
    have get : s.lh[tail]? = some s.lh[tail] := List.getElem?_eq_getElem (by omega)
    refine recovers_step
      { installBlock g s tail s.lh[tail] with mode := .install (tail + 1) } ?_
      (ih _ (tail + 1) alive rfl (by show s.lh.length - (tail + 1) = left; omega))
    simp [step, recoverStep, alive, mode, get]

theorem recovers (alive : s.panicked = none) : ∃ s', Recovers g s s' ∧ s'.mode = .up := by
  match mode : s.mode with
  | .up => exact ⟨s, .start, mode⟩
  | .clearHead => exact recovers_clear alive mode
  | .install tail => exact recovers_install _ s tail alive mode rfl
  | .readHead =>
    refine recovers_step { s with lh := readHead (s.bread g.start), mode := .install 0 } ?_
      (recovers_install _ _ 0 alive rfl rfl)
    simp [step, recoverStep, alive, mode]

/-- In any run whose logged blocks lie outside the log, with stops between any two writes of
`commit` and of `recover_from_log` itself: when `recover_from_log` completes, which it does if it is
let run, the home blocks are those after all transactions whose header with `n > 0` reached the disk
and none of the others, the header on the disk has `n = 0`, and a block that none of them logged has
not changed. -/
theorem recovery_atomic (g : Geometry) (d₀ : Disk) (clean : readHead (d₀ g.start) = []) (s : State)
    (run : Reach g (HomeOnly g) d₀ s) :
    (∀ s', step g .recover s = some s' → s'.mode = .up →
      (∀ b, ¬g.Region b → s'.disk b = replay d₀ s'.durable b) ∧
      Bytes.get32 (s'.disk g.start) 0 = 0 ∧
      ∀ b, ¬g.Region b → (∀ tx ∈ s'.durable, b ∉ tx.map Prod.fst) → s'.disk b = d₀ b) ∧
    (s.mode ≠ .up → ∃ s', Recovers g s s' ∧ s'.mode = .up) := by
  obtain ⟨_, safe⟩ := Safe.reach clean run
  refine ⟨fun s' hs complete => ?_, fun off => recovers (safe.alive off)⟩
  obtain ⟨placed, header⟩ := recovered safe hs complete
  refine ⟨placed, header, fun b hb fresh => ?_⟩
  rw [placed b hb, replay_of_notMem fresh]

instance (g : Geometry) (s : State) : (l : Label) → Decidable (HomeOnly g s l)
  | .logWrite _ b _ => inferInstanceAs (Decidable (¬g.Region b.toNat))
  | .beginOp _ | .endOp _ | .commit _ | .recover | .crash => .isTrue trivial

/-- A commit of blocks 100 and 101 is stopped after the first is installed, and the recovery is
stopped once as well. -/
def stopped : List Label :=
  let booted : List Label := List.replicate 3 Label.recover
  let logged : List Label := [Label.beginOp 0, Label.logWrite 0 100 (Function.const _ 1),
    Label.logWrite 0 101 (Function.const _ 2), Label.endOp 0]
  let cut : List Label := List.replicate 6 (Label.commit 0) ++ [Label.crash]
  let again : List Label := [Label.recover, Label.recover, Label.crash]
  booted ++ logged ++ cut ++ again ++ List.replicate 4 Label.recover

theorem recovery_atomic_stopped : ∃ s s' : State,
    Reach (mkfsGeometry 2) (HomeOnly (mkfsGeometry 2)) (fun _ _ => 0) s ∧
    step (mkfsGeometry 2) .recover s = some s' ∧ s'.durable.length = 1 ∧
    ∀ b, ¬(mkfsGeometry 2).Region b → s'.disk b = replay (fun _ _ => 0) s'.durable b := by
  have run : (exec (step (mkfsGeometry 2)) (fun s l => decide (HomeOnly (mkfsGeometry 2) s l))
      stopped (State.boot (fun _ _ => 0) [] [])).map
        (fun s => (s.mode, s.panicked, s.durable.length)) = some (.clearHead, none, 1) := by
    decide +kernel
  obtain ⟨s, hs, fields⟩ := Option.map_eq_some_iff.mp run
  simp only [Prod.mk.injEq] at fields
  have reach := reach_of_exec (fun s l h => of_decide_eq_true h) _ hs
  have clean : readHead ((fun _ _ => 0 : Disk) (mkfsGeometry 2).start) = [] := by decide +kernel
  have last : step (mkfsGeometry 2) .recover s = some
      { s.bwrite 2 (writeHead s.lh (s.bread 2)) with mode := .up } := by
    simp [step, recoverStep, fields.1, fields.2.1, mkfsGeometry]
  have both := recovery_atomic (mkfsGeometry 2) (fun _ _ => 0) clean s reach
  exact ⟨s, _, reach, last, fields.2.2, (both.1 _ last rfl).1⟩

end Xv6.Log
