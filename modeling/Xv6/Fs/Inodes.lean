import Xv6.Fs.View

/-! The operations on the inode table that leave the file system as it is. -/

namespace Xv6.Fs

open Wp Function

variable {sb : Superblock} {h h' base : Slot → Nat} {dirty dirty' : Option Slot} {s s' s'' : State}
  {i j : Slot} {x y n : Nat} {E : Stop → Prop} {ip : Inode}

/-- One more, and one less, reference to entry `i`. -/
def inc (h : Slot → Nat) (i : Slot) : Slot → Nat := update h i (h i + 1)

def dec (h : Slot → Nat) (i : Slot) : Slot → Nat := update h i (h i - 1)

@[simp] theorem inc_same : inc h i i = h i + 1 := update_self ..

theorem inc_ne (e : j ≠ i) : inc h i j = h j := update_of_ne e ..

theorem le_inc : h j ≤ inc h i j := by
  by_cases e : j = i
  · rw [e, inc_same]; omega
  · rw [inc_ne e]

theorem pos_inc (hj : 0 < h j) : 0 < inc h i j := Nat.lt_of_lt_of_le hj le_inc

@[simp] theorem dec_same : dec h i i = h i - 1 := update_self ..

theorem dec_ne (e : j ≠ i) : dec h i j = h j := update_of_ne e ..

theorem pos_of_dec (hj : 0 < dec h i j) : 0 < h j := by
  by_cases e : j = i
  · subst e
    rw [dec_same] at hj
    omega
  · rwa [dec_ne e] at hj

@[simp] theorem dec_inc : dec (inc h i) i = h := by
  funext j
  by_cases e : j = i
  · rw [e, dec_same, inc_same]; omega
  · rw [dec_ne e, inc_ne e]

/-- From `s` to `s'` the file system stays as it is; `h` counts the references in `s'`. -/
structure Quiet (sb : Superblock) (base h : Slot → Nat) (s s' : State) : Prop where
  low : Low sb h none s'
  frame : Frame sb base s s'
  graph : graph sb s' = graph sb s

theorem Low.quietRefl (L : Low sb h none s) : Quiet sb base h s s :=
  ⟨L, .refl, rfl⟩

theorem Quiet.trans (q : Quiet sb base h s s') (q' : Quiet sb base h' s' s'') :
    Quiet sb base h' s s'' :=
  ⟨q'.low, q.frame.trans q'.frame, q'.graph.trans q.graph⟩

theorem Quiet.mono (q : Quiet sb base h s s')
    (le : ∀ i, 0 < base' i → 0 < base i) : Quiet sb base' h s s' :=
  ⟨q.low, q.frame.mono le, q.graph⟩

/-- From `s` to `s'` only the inode table changes, and `h` counts the references in `s'`. -/
structure Still (sb : Superblock) (base h : Slot → Nat) (s s' : State) : Prop where
  table : Table sb h none s'
  frame : Frame sb base s s'
  disk : s'.disk = s.disk

theorem Still.trans (q : Still sb base h s s') (q' : Still sb base h' s' s'') :
    Still sb base h' s s'' :=
  ⟨q'.table, q.frame.trans q'.frame, q'.disk.trans q.disk⟩

theorem Still.mono (q : Still sb base h s s')
    (le : ∀ i, 0 < base' i → 0 < base i) : Still sb base' h s s' :=
  ⟨q.table, q.frame.mono le, q.disk⟩

/-- The table after a change of entry `i` alone. -/
theorem Table.set (T : Table sb h dirty s) (disk : s'.disk = s.disk)
    (others : ∀ j, j ≠ i → s'.itable j = s.itable j) (ref : (s'.itable i).ref = n)
    (dev : 0 < n → (s'.itable i).dev = rootdev) (lt : 0 < n → (s'.itable i).inum < sb.ninodes)
    (unique : 0 < n → ∀ j, j ≠ i → 0 < h j → (s.itable j).inum ≠ (s'.itable i).inum)
    (typed : 0 < n → (s'.itable i).valid = true → (s'.din i).type ≠ 0)
    (clean : 0 < n → (s'.itable i).valid = true → dirty' ≠ some i →
      s'.din i = sb.inode s.disk (s'.itable i).inum)
    (weaker : ∀ j, j ≠ i → dirty' ≠ some j → dirty ≠ some j) :
    Table sb (update h i n) dirty' s' := by
  have din : ∀ j, j ≠ i → s'.din j = s.din j := fun j ji => by rw [State.din, State.din, others j ji]
  refine ⟨fun j => ?_, fun j hj => ?_, fun j hj => ?_, fun j k hj hk e => ?_, fun j hj v => ?_,
    fun j hj v d => ?_⟩
  all_goals by_cases ji : j = i
  · subst ji; rwa [update_self]
  · rw [update_of_ne ji, others j ji]; exact T.ref_eq j
  · subst ji; rw [update_self] at hj; exact dev hj
  · rw [update_of_ne ji] at hj; rw [others j ji]; exact T.dev_eq j hj
  · subst ji; rw [update_self] at hj; exact lt hj
  · rw [update_of_ne ji] at hj; rw [others j ji]; exact T.inum_lt j hj
  · subst ji
    by_contra kj
    rw [update_self] at hj
    rw [update_of_ne (Ne.symm kj)] at hk
    rw [others k (Ne.symm kj)] at e
    exact unique hj k (Ne.symm kj) hk e.symm
  · rw [update_of_ne ji] at hj
    by_cases ki : k = i
    · subst ki
      rw [update_self] at hk
      rw [others j ji] at e
      exact absurd e (unique hk j ji hj)
    · rw [update_of_ne ki] at hk
      rw [others j ji, others k ki] at e
      exact T.unique j k hj hk e
  · subst ji; rw [update_self] at hj; exact typed hj v
  · rw [update_of_ne ji] at hj
    rw [others j ji] at v
    rw [din j ji]
    exact T.typed j hj v
  · subst ji; rw [update_self] at hj; rw [disk]; exact clean hj v d
  · rw [update_of_ne ji] at hj
    rw [others j ji] at v ⊢
    rw [din j ji, disk]
    exact T.clean j hj v (weaker j ji d)

theorem node_set (T : Table sb h dirty s) (T' : Table sb h' dirty' s') (disk : s'.disk = s.disk)
    (others : ∀ j, j ≠ i → s'.itable j = s.itable j)
    (new : s'.Cached i y → s'.din i = node sb s y)
    (old : s.Cached i y → ¬s'.Cached i y → s.din i = sb.inode s.disk y) :
    node sb s' y = node sb s y := by
  have cached : ∀ j, j ≠ i → (s'.Cached j y ↔ s.Cached j y) := fun j ji => by
    rw [State.Cached, State.Cached, others j ji]
  by_cases c' : s'.Cached i y
  · rw [T'.node_cached c', new c']
  · by_cases c : ∃ j, j ≠ i ∧ s.Cached j y
    · obtain ⟨j, ji, cj⟩ := c
      rw [T'.node_cached ((cached j ji).mpr cj), T.node_cached cj, State.din, State.din, others j ji]
    · have none' : ∀ j, ¬s'.Cached j y := fun j cj => by
        by_cases ji : j = i
        · exact c' (ji ▸ cj)
        · exact c ⟨j, ji, (cached j ji).mp cj⟩
      rw [node_of_none none', disk]
      by_cases ci : s.Cached i y
      · rw [T.node_cached ci, old ci c']
      · refine (node_of_none fun j cj => ?_).symm
        by_cases ji : j = i
        · exact ci (ji ▸ cj)
        · exact c ⟨j, ji, cj⟩

theorem sameFile_of_disk (disk : s'.disk = s.disk) (node : node sb s' y = node sb s y) :
    SameFile sb s s' y := ⟨node, fun _ _ _ => by rw [disk]⟩

theorem Low.still (L : Low sb h none s) (q : Still sb base h' s s') : Quiet sb base h' s s' := by
  have node : ∀ y, node sb s' y = node sb s y := fun y => by
    rw [q.table.node_disk, L.table.node_disk, q.disk]
  have same : ∀ y, y < sb.ninodes → SameFile sb s s' y := fun y _ =>
    sameFile_of_disk q.disk (node y)
  exact ⟨⟨q.table, L.volume.same same fun b _ => by rw [q.disk]⟩, q.frame,
    graph_same L.volume same⟩

theorem Table.still (T : Table sb h none s) (T' : Table sb h' none s') (disk : s'.disk = s.disk)
    (others : ∀ j, j ≠ i → s'.itable j = s.itable j)
    (files : s'.ftable = s.ftable ∧ s'.cwd = s.cwd ∧ s'.cur = s.cur)
    (inum : 0 < h i → 0 < h' i → (s'.itable i).inum = (s.itable i).inum)
    (valid : 0 < h i → 0 < h' i → (s.itable i).valid = true → (s'.itable i).valid = true) :
    Still sb (fun j => min (h j) (h' j)) h' s s' := by
  have node : ∀ y, node sb s' y = node sb s y := fun y => by
    rw [T'.node_disk, T.node_disk, disk]
  refine ⟨T', ?_, disk⟩
  refine ⟨files.1, files.2.1, files.2.2, fun j hj => ?_, fun j hj v => ?_, fun j _ _ => by rw [node]⟩
  all_goals by_cases ji : j = i
  · subst ji; exact inum (by omega) (by omega)
  · rw [others j ji]
  · subst ji; exact valid (by omega) (by omega) v
  · rwa [others j ji]

theorem Table.copy_still (T : Table sb h none s) (hi : 0 < h i) (v : (s.itable i).valid = true)
    (q : Still sb base h' s s') (hb : 0 < base i) (hi' : 0 < h' i) :
    (s'.itable i).valid = true ∧ s'.din i = s.din i := by
  have v' := q.frame.valid i hb v
  refine ⟨v', ?_⟩
  rw [q.table.clean i hi' v' nofun, T.clean i hi v nofun, q.disk, q.frame.inum i hb]

theorem State.setInode_ne (e : j ≠ i) : (s.setInode i ip).itable j = s.itable j :=
  update_of_ne e ..

@[simp] theorem State.setInode_same : (s.setInode i ip).itable i = ip :=
  update_self ..

def locks (s : State) : Slot → Option Pid := fun i => (s.itable i).lock

theorem locks_setInode : locks (s.setInode i ip) = update (locks s) i ip.lock :=
  comp_update (fun v : Inode => v.lock) s.itable i ip

theorem locks_setInode_same (same : ip.lock = (s.itable i).lock) :
    locks (s.setInode i ip) = locks s := by
  rw [locks_setInode, same]
  exact update_eq_self i (locks s)

theorem Table.setInode (T : Table sb h none s) (ip : Inode) (ref : ip.ref = n)
    (pos : 0 < n → 0 < h i) (dev : ip.dev = (s.itable i).dev) (inum : ip.inum = (s.itable i).inum)
    (valid : (s.itable i).valid = true → ip.valid = true)
    (din : ip.valid = true → ip.din = sb.inode s.disk ip.inum ∧ ip.din.type ≠ 0) :
    Still sb (fun j => min (h j) (update h i n j)) (update h i n) s
      (s.setInode i ip) := by
  have T' : Table sb (update h i n) none (s.setInode i ip) := by
    refine T.set (i := i) rfl (fun j ji => State.setInode_ne ji) ?_ ?_ ?_ ?_ ?_ ?_ fun _ _ => id
    all_goals simp only [State.din, State.setInode_same]
    · exact ref
    · exact fun hn => dev.trans (T.dev_eq i (pos hn))
    · exact fun hn => inum ▸ T.inum_lt i (pos hn)
    · exact fun hn j ji hj e => ji (T.unique j i hj (pos hn) (e.trans inum))
    · exact fun _ v => (din v).2
    · exact fun _ v _ => (din v).1
  refine T.still T' rfl (fun j ji => State.setInode_ne ji) ⟨rfl, rfl, rfl⟩ ?_ ?_
  · exact fun _ _ => by rw [State.setInode_same, inum]
  · exact fun _ _ v => by rw [State.setInode_same]; exact valid v

theorem Table.wp_iget (T : Table sb h none s) (hx : x < sb.ninodes)
    (room : E .igetNoInodes ∨ ∃ j, h j = 0)
    (post : ∀ i s', Still sb h (inc h i) s s' → (s'.itable i).inum = x →
      locks s' = locks s → (h i = 0 → (s'.itable i).valid = false) → Q i s') :
    wp (iget x) E Q s := by
  unfold iget
  simp only [wp_bind, wp_get]
  split
  · rename_i i t found
    simp only [wp_bind, wp_set, wp_pure]
    have base : ∀ j, 0 < h j → 0 < min (h j) (inc h i j) := fun j hj =>
      Nat.lt_min.mpr ⟨hj, pos_inc hj⟩
    rcases iget_cases found with ⟨is, rfl⟩ | ⟨isnt, free, rfl⟩
    · have hi : 0 < h i := T.ref_pos.mp is.1
      have ref : (s.itable i).ref + 1 = (h i + 1 : Nat) := by rw [T.ref_eq]; rfl
      have q := T.setInode { s.itable i with ref := (s.itable i).ref + 1 } ref (fun _ => hi) rfl rfl
        (fun v => v) fun v => ⟨T.clean i hi v (by rintro ⟨⟩), T.typed i hi v⟩
      exact post i _ (q.mono base) (State.setInode_same.symm ▸ is.2.2) (locks_setInode_same rfl)
        fun none => absurd hi (by omega)
    · have h0 : h i = 0 := by
        have := T.ref_eq i
        omega
      have T' : Table sb (inc h i) none (s.setInode i
          { s.itable i with dev := rootdev, inum := x, ref := 1, valid := false }) := by
        refine T.set (i := i) rfl (fun j ji => State.setInode_ne ji) ?_ ?_ ?_ ?_ ?_ ?_
          fun _ _ => id
        all_goals simp only [State.din, State.setInode_same]
        · rw [h0]; rfl
        · exact fun _ => trivial
        · exact fun _ => hx
        · exact fun _ j _ hj e => isnt j ⟨T.ref_pos.mpr hj, T.dev_eq j hj, e⟩
        · intros; contradiction
        · intros; contradiction
      have q := T.still (i := i) T' rfl (fun j ji => State.setInode_ne ji) ⟨rfl, rfl, rfl⟩
        (fun hi => absurd hi (by omega)) fun hi => absurd hi (by omega)
      exact post i _ (q.mono base) (by simp [State.setItable]) (locks_setInode_same rfl)
        fun _ => by simp [State.setItable]
  · rename_i none
    rcases room with e | ⟨j, free⟩
    · exact e
    · refine absurd ?_ (iget_full none j)
      rw [T.ref_eq, free]
      rfl

section

variable (T : Table sb h none s) (hi : 0 < h i)

include T hi

theorem Table.wp_idup (post : ∀ s', Still sb h (inc h i) s s' → locks s' = locks s → Q i s') :
    wp (idup i) E Q s := by
  unfold idup
  simp only [wp_bind, wp_modify, wp_pure]
  have ref : (s.itable i).ref + 1 = (h i + 1 : Nat) := by rw [T.ref_eq]; rfl
  have q := T.setInode { s.itable i with ref := (s.itable i).ref + 1 } ref (fun _ => hi) rfl rfl
    (fun v => v) fun v => ⟨T.clean i hi v (by rintro ⟨⟩), T.typed i hi v⟩
  exact post _ (q.mono fun j hj => Nat.lt_min.mpr ⟨hj, pos_inc hj⟩) (locks_setInode_same rfl)

theorem Table.setLock (lock : Option Pid) :
    Still sb h h s (s.setInode i { s.itable i with lock := lock }) := by
  have q := T.setInode { s.itable i with lock := lock } (T.ref_eq i) (fun _ => hi) rfl rfl
    (fun v => v) fun v => ⟨T.clean i hi v nofun, T.typed i hi v⟩
  rw [update_eq_self] at q
  exact q.mono fun j hj => Nat.lt_min.mpr ⟨hj, hj⟩

theorem Table.wp_iunlock (own : E .iunlock ∨ locks s i = some s.cur.val)
    (post : ∀ s', Still sb h h s s' → locks s' = update (locks s) i none → Q () s') :
    wp (iunlock i) E Q s := by
  unfold iunlock
  simp only [wp_bind, wp_get]
  refine wp_ite (fun bad => ?_) fun _ => ?_
  · rcases own with e | own
    · exact e
    · have ref := T.ref_eq i
      rcases bad with other | none
      · exact absurd own other
      · omega
  · exact post _ (T.setLock hi none) locks_setInode

theorem Table.wp_ilock
    (live : E .ilockNoType ∨ Alive sb s (s.itable i).inum) (free : E .deadlock ∨ locks s i = none)
    (post : ∀ s', Still sb h h s s' → (s'.itable i).valid = true →
      locks s' = update (locks s) i (some s.cur.val) → Q () s') :
    wp (ilock sb i) E Q s := by
  have ref := T.ref_eq i
  unfold ilock acquiresleep
  simp only [wp_bind, wp_get]
  rw [if_neg (by omega)]
  simp only [wp_bind, wp_get]
  refine wp_ite (fun _ => ?_) fun held => free.resolve_right held
  simp only [wp_set]
  have q := T.setLock hi (some s.cur.val)
  by_cases v : (s.itable i).valid = true
  · rw [State.setInode_same, if_pos v]
    exact post _ q (by rwa [State.setInode_same]) locks_setInode
  · rw [State.setInode_same, if_neg v]
    simp only [wp_bind, wp_set]
    refine wp_ite (fun dead => ?_) fun typed => ?_
    · -- the disk inode is not allocated
      rcases live with e | a
      · exact e
      · refine absurd ?_ a.2
        rwa [T.node_disk]
    · have q' := q.table.setInode
        { s.itable i with
          lock := some s.cur.val, din := sb.inode s.disk (s.itable i).inum, valid := true }
        (T.ref_eq i) (fun _ => hi) (by rw [State.setInode_same])
        (by rw [State.setInode_same]) (fun _ => rfl) fun _ => ⟨rfl, typed⟩
      rw [update_eq_self] at q'
      refine post _ (q.trans (q'.mono fun j hj => Nat.lt_min.mpr ⟨hj, hj⟩))
        (by rw [State.setInode_same]) ?_
      rw [locks_setInode, locks_setInode, update_idem]

theorem Table.wp_iput_keep (stays : ¬(h i = 1 ∧ (s.itable i).valid = true ∧ (s.din i).nlink = 0))
    (post : ∀ s', Still sb (dec h i) (dec h i) s s' → locks s' = locks s → Q () s') :
    wp (iput sb i) E Q s := by
  have ref := T.ref_eq i
  unfold iput
  simp only [wp_bind, wp_get]
  rw [if_neg fun c => stays ⟨by omega, c.2⟩]
  have q := T.setInode { s.itable i with ref := (s.itable i).ref - 1 } (n := h i - 1)
    (by simp only; omega) (fun _ => hi) rfl rfl (fun v => v)
    fun v => ⟨T.clean i hi v (by rintro ⟨⟩), T.typed i hi v⟩
  refine post _ (q.mono fun j hj => ?_) (locks_setInode_same rfl)
  exact Nat.lt_min.mpr ⟨pos_of_dec hj, hj⟩

end

/-! The same with the blocks, which these operations do not see. -/

section Low

variable (L : Low sb h none s)

include L

theorem Low.setInode (ip : Inode) (ref : ip.ref = n) (pos : 0 < n → 0 < h i)
    (dev : ip.dev = (s.itable i).dev) (inum : ip.inum = (s.itable i).inum)
    (valid : (s.itable i).valid = true → ip.valid = true)
    (din : ip.valid = true → ip.din = sb.inode s.disk ip.inum ∧ ip.din.type ≠ 0) :
    Quiet sb (fun j => min (h j) (update h i n j)) (update h i n) s
      (s.setInode i ip) :=
  L.still (L.table.setInode ip ref pos dev inum valid din)

theorem Low.setLock (hi : 0 < h i) (lock : Option Pid) :
    Quiet sb h h s (s.setInode i { s.itable i with lock := lock }) :=
  L.still (L.table.setLock hi lock)

theorem wp_iget (hx : x < sb.ninodes)
    (room : E .igetNoInodes ∨ ∃ j, h j = 0)
    (post : ∀ i s', Quiet sb h (inc h i) s s' → s'.disk = s.disk → (s'.itable i).inum = x →
      locks s' = locks s → (h i = 0 → (s'.itable i).valid = false) → Q i s') :
    wp (iget x) E Q s :=
  L.table.wp_iget hx room fun i s' q => post i s' (L.still q) q.disk

theorem wp_idup (hi : 0 < h i)
    (post : ∀ s', Quiet sb h (inc h i) s s' → s'.disk = s.disk → locks s' = locks s → Q i s') :
    wp (idup i) E Q s :=
  L.table.wp_idup hi fun s' q => post s' (L.still q) q.disk

theorem wp_iunlock (hi : 0 < h i)
    (own : E .iunlock ∨ locks s i = some s.cur.val)
    (post : ∀ s', Quiet sb h h s s' → s'.disk = s.disk →
      locks s' = update (locks s) i none → Q () s') :
    wp (iunlock i) E Q s :=
  L.table.wp_iunlock hi own fun s' q => post s' (L.still q) q.disk

theorem wp_ilock (hi : 0 < h i)
    (live : E .ilockNoType ∨ Alive sb s (s.itable i).inum)
    (free : E .deadlock ∨ locks s i = none)
    (post : ∀ s', Quiet sb h h s s' → s'.disk = s.disk → (s'.itable i).valid = true →
      locks s' = update (locks s) i (some s.cur.val) → Q () s') :
    wp (ilock sb i) E Q s :=
  L.table.wp_ilock hi live free fun s' q => post s' (L.still q) q.disk

theorem wp_iput_keep (hi : 0 < h i)
    (stays : ¬(h i = 1 ∧ (s.itable i).valid = true ∧ (s.din i).nlink = 0))
    (post : ∀ s', Quiet sb (dec h i) (dec h i) s s' → s'.disk = s.disk → locks s' = locks s →
      Q () s') :
    wp (iput sb i) E Q s :=
  L.table.wp_iput_keep hi stays fun s' q => post s' (L.still q) q.disk

end Low

end Xv6.Fs
