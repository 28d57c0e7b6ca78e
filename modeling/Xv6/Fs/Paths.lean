import Xv6.Fs.Directories

/-! Path resolution: `namei` and `nameiparent` follow a path from directory to directory. -/

namespace Xv6.Fs

open Wp SlotMap Function Option

open List hiding next elem map_map

variable {sb : Superblock} {h : Slot → Nat} {s s' s0 : State} {i j ip : Slot} {x y k : Nat}
  {name : Name} {names : List Name} {path rest : List UInt8} {E : Stop → Prop}

section Components

/-- The components of a path: what stands between slashes, unless it is empty, cut to `DIRSIZ`. -/
def components (path : List UInt8) : List Name :=
  ((path.splitOn slash).filter (· ≠ [])).map (·.take dirsiz)

theorem components_slash : components (slash :: path) = components path := by
  rw [components, List.splitOn, splitOnP_cons_eq_if_modifyHead, if_pos (by decide),
    filter_cons_of_neg (by simp)]
  rfl

theorem components_dropWhile : components (path.dropWhile (· = slash)) = components path := by
  induction path with
  | nil => rfl
  | cons b path ih =>
    by_cases eq : b = slash
    · rw [dropWhile_cons_of_pos (by simpa using eq), ih, eq, components_slash]
    · rw [dropWhile_cons_of_neg (by simpa using eq)]

theorem components_append (ne : elem ≠ []) (inner : slash ∉ elem)
    (stop : ∀ b ∈ path.head?, b = slash) :
    components (elem ++ path) = elem.take dirsiz :: components path := by
  have noSep : ∀ b ∈ elem, (b == slash) = false := fun b mem =>
    beq_eq_false_iff_ne.mpr fun eq => inner (eq ▸ mem)
  cases path with
  | nil =>
    rw [append_nil, components, List.splitOn, splitOnP_eq_singleton noSep,
      filter_cons_of_pos (by simpa using ne)]
    rfl
  | cons b path =>
    obtain rfl : b = slash := stop b rfl
    rw [components_slash, components, List.splitOn,
      splitOnP_append_cons_of_forall_mem noSep slash (by decide),
      filter_cons_of_pos (by simpa using ne)]
    rfl

theorem components_of_skipelem_none (skip : skipelem path = none) : components path = [] := by
  simp only [skipelem] at skip
  split at skip
  · rename_i empty
    rw [← components_dropWhile, empty]
    rfl
  · cases skip

theorem length_dropWhile_le {α : Type} (p : α → Bool) (l : List α) :
    (l.dropWhile p).length ≤ l.length :=
  (dropWhile_suffix p).length_le

theorem components_of_skipelem (skip : skipelem path = some (name, rest)) :
    components path = name :: components rest ∧ rest.length < path.length := by
  simp only [skipelem] at skip
  split at skip
  · cases skip
  · rename_i ne
    cases skip
    -- the path after the first slashes, split before the next one
    generalize eq : path.dropWhile (· = slash) = tail at ne
    have split : tail.takeWhile (· ≠ slash) ++ tail.dropWhile (· ≠ slash) = tail :=
      takeWhile_append_dropWhile
    have short := length_dropWhile_le (· = slash) path
    have head : ∀ b ∈ tail.head?, b ≠ slash := by
      intro b mem
      have first := head?_dropWhile_not (· = slash) path
      rw [eq, mem] at first
      simpa using first
    have elem : tail.takeWhile (· ≠ slash) ≠ [] := by
      cases tail with
      | nil => exact absurd rfl ne
      | cons b tail =>
        rw [takeWhile_cons_of_pos (by simpa using head b rfl)]
        exact cons_ne_nil _ _
    constructor
    · rw [components_dropWhile, ← components_dropWhile, eq]
      nth_rewrite 1 [← split]
      refine components_append elem (fun mem => ?_) fun b mem => ?_
      · simpa using mem_takeWhile_imp mem
      · have first := head?_dropWhile_not (· ≠ slash) tail
        rw [mem] at first
        simpa using first
    · have less := length_dropWhile_le (· = slash) (tail.dropWhile (· ≠ slash))
      have pos := length_pos_iff.mpr elem
      have lengths := congrArg List.length split
      rw [length_append] at lengths
      rw [eq] at short
      omega

theorem elements_eq_components (fuel : Nat) :
    ∀ path, path.length ≤ fuel → elements fuel path = components path := by
  induction fuel with
  | zero =>
    intro path short
    obtain rfl : path = [] := length_eq_zero_iff.mp (Nat.le_zero.mp short)
    rfl
  | succ fuel ih =>
    intro path short
    unfold elements
    split
    · rename_i skip
      exact (components_of_skipelem_none skip).symm
    · rename_i name rest skip
      obtain ⟨eq, less⟩ := components_of_skipelem skip
      rw [eq, ih rest (by omega)]

end Components

section Walk

/-- The inode that a name leads to from `x`, if `x` is a directory and has it. -/
def lookup (g : Nat → Option Node) (x : Nat) (name : Name) : Option Nat :=
  (g x).bind fun n => if n.type = tDir then toMap n.ents (nameKey name) else none

def isDir (g : Nat → Option Node) (x : Nat) : Bool := (g x).any fun n => n.type = tDir

def walk (g : Nat → Option Node) (x : Nat) (names : List Name) : Option Nat :=
  names.foldlM (lookup g) x

/-- What the loop of `namex` returns at `x`, as an inode number. -/
def resolve (g : Nat → Option Node) (parent : Bool) : Nat → List Name → Name → Option (Nat × Name)
  | x, [], last => if parent then none else some (x, last)
  | x, name :: rest, _ =>
    if !isDir g x then none
    else if parent ∧ rest = [] then some (x, name)
    else (lookup g x name).bind fun y => resolve g parent y rest name

variable {g : Nat → Option Node}

end Walk

section Namex

/-- A directory tree: the root and what the entries name are allocated and have links or are in use,
and directories are whole entries. -/
structure Tree (sb : Superblock) (h : Slot → Nat) (s : State) : Prop where
  root : ∃ n, graph sb s rootino = some n ∧ n.nlink ≠ 0
  linked : ∀ x n (k : Nat) y name, graph sb s x = some n → n.ents[k]? = some (some (y, name)) →
    ∃ m, graph sb s y = some m ∧ (m.nlink ≠ 0 ∨ ∃ j, 0 < h j ∧ (s.itable j).inum = y)
  whole : ∀ x, Alive sb s x → (node sb s x).type = tDir → 16 ∣ (node sb s x).size.toNat

/-- From `s0` to `s` nothing has happened but that the table has one more reference to `ip`. -/
structure At (sb : Superblock) (h : Slot → Nat) (ip : Slot) (s₀ s : State) : Prop where
  quiet : Quiet sb h (inc h ip) s₀ s
  disk : s.disk = s₀.disk
  free : locks s = locks s₀

/-- What `namex` returns: nothing, with the references as before, or the entry for an inode, with
one more reference to it. -/
def Returned (sb : Superblock) (h : Slot → Nat) (s₀ : State) (found : Option (Nat × Name))
    (r : Option (Slot × Name)) (s : State) : Prop :=
  match found with
  | none => r = none ∧ Quiet sb h h s₀ s ∧ s.disk = s₀.disk ∧ locks s = locks s₀
  | some (y, name) => ∃ j, r = some (j, name) ∧ (s.itable j).inum = y ∧ At sb h j s₀ s

theorem inc_comm : inc (inc h i) j = inc (inc h j) i := by
  funext l
  by_cases li : l = i <;> by_cases lj : l = j
  · subst li lj
    rfl
  · subst li
    rw [inc_ne lj, inc_same, inc_same, inc_ne lj]
  · subst lj
    rw [inc_same, inc_ne li, inc_ne li, inc_same]
  · rw [inc_ne lj, inc_ne li, inc_ne li, inc_ne lj]

variable {Q : Unit → State → Prop}

theorem Table.wp_iunlockput_keep (T : Table sb h none s) (hi : 0 < h i)
    (v : (s.itable i).valid = true) (own : locks s i = some s.cur.val)
    (stays : ¬(h i = 1 ∧ (s.din i).nlink = 0)) (post : ∀ s', Still sb (dec h i) (dec h i) s s' →
      locks s' = update (locks s) i none → Q () s') : wp (iunlockput sb i) E Q s := by
  unfold iunlockput
  rw [wp_bind]
  refine T.wp_iunlock hi (.inr own) fun s1 q1 locks1 => ?_
  obtain ⟨-, din⟩ := T.copy_still hi v q1 hi hi
  refine q1.table.wp_iput_keep hi (fun last => stays ⟨last.1, by rw [← din]; exact last.2.2⟩)
    fun s2 q2 locks2 => ?_
  exact post s2 ((q1.mono fun j hj => pos_of_dec hj).trans q2) (locks2.trans locks1)

theorem wp_iunlockput_keep (L : Low sb h none s) (hi : 0 < h i) (v : (s.itable i).valid = true)
    (own : locks s i = some s.cur.val) (stays : ¬(h i = 1 ∧ (s.din i).nlink = 0))
    (post : ∀ s', Quiet sb (dec h i) (dec h i) s s' → s'.disk = s.disk →
      locks s' = update (locks s) i none → Q () s') : wp (iunlockput sb i) E Q s :=
  L.table.wp_iunlockput_keep hi v own stays fun s' q => post s' (L.still q) q.disk

/-- As `At`, with the inode of `ip` locked and its node `n`. -/
structure Locked (sb : Superblock) (h : Slot → Nat) (ip : Slot) (n : Node) (s₀ s : State) : Prop where
  quiet : Quiet sb h (inc h ip) s₀ s
  disk : s.disk = s₀.disk
  lock : locks s = update (locks s₀) ip (some s.cur.val)
  valid : (s.itable ip).valid = true
  node : n = ⟨(s.din ip).type, (s.din ip).nlink, entries sb s (s.itable ip).inum (s.din ip)⟩

theorem At.wp_ilock (A : At sb h ip s0 s) (unlocked : ∀ i, locks s0 i = none)
    (graph : graph sb s0 (s.itable ip).inum = some n)
    (post : ∀ s1, Locked sb h ip n s0 s1 → (s1.itable ip).inum = (s.itable ip).inum → Q () s1) :
    wp (ilock sb ip) E Q s := by
  have pos : 0 < inc h ip ip := by
    rw [inc_same]
    omega
  have alive : Alive sb s (s.itable ip).inum := by
    by_contra dead
    rw [← A.quiet.graph, Fs.graph, if_neg dead] at graph
    cases graph
  refine Fs.wp_ilock A.quiet.low pos (.inr alive)
    (.inr (by rw [A.free]; exact unlocked ip)) fun s1 q disk valid locks => ?_
  have inum := q.frame.inum ip pos
  have entry := q.low.table.graph_entry pos valid
  rw [q.graph, A.quiet.graph, inum, graph] at entry
  refine post s1 ⟨A.quiet.trans (q.mono fun j hj => pos_inc hj), disk.trans A.disk, ?_, valid, ?_⟩
    inum
  · rw [locks, A.free, q.frame.cur]
  · rw [inum]
    exact Option.some.inj entry

theorem Locked.wp_iunlockput (l : Locked sb h ip n s0 s) (unlocked : ∀ i, locks s0 i = none)
    (keep : 0 < h ip ∨ n.nlink ≠ 0)
    (post : ∀ s', Quiet sb h h s0 s' → s'.disk = s0.disk → locks s' = locks s0 → Q () s') :
    wp (iunlockput sb ip) E Q s := by
  have pos : 0 < inc h ip ip := by
    rw [inc_same]
    omega
  refine wp_iunlockput_keep l.quiet.low pos l.valid (by rw [l.lock, update_self])
    (fun last => ?_) fun s' q disk locks => ?_
  · rw [inc_same] at last
    rcases keep with held | linked
    · omega
    · rw [l.node] at linked
      exact linked last.2
  · rw [dec_inc] at q
    refine post s' (l.quiet.trans q) (disk.trans l.disk) ?_
    rw [locks, l.lock, update_idem, update_eq_self_iff, unlocked]

/-- Two entries of the inode table are free. -/
def TwoFree (h : Slot → Nat) : Prop := ∃ a b, a ≠ b ∧ h a = 0 ∧ h b = 0

theorem wp_namexLoop (parent : Bool) (L0 : Low sb h none s0) (T : Tree sb h s0)
    (unlocked : ∀ i, locks s0 i = none) (room : E .igetNoInodes ∨ TwoFree h)
    (names : List Name) : ∀ ip last s, At sb h ip s0 s →
    (∃ n, graph sb s0 (s.itable ip).inum = some n ∧ (0 < h ip ∨ n.nlink ≠ 0)) →
    wp (namexLoop sb parent names ip last) E
      (Returned sb h s0 (resolve (graph sb s0) parent (s.itable ip).inum names last)) s := by
  induction names with
  | nil =>
    rintro ip last s A ⟨n, graph, keep⟩
    have pos : 0 < inc h ip ip := by
      rw [inc_same]
      omega
    refine wp_ite (fun parent => ?_) fun notParent => ?_
    · rw [wp_bind, resolve, if_pos parent]
      refine wp_iput_keep A.quiet.low pos (fun last => ?_) fun s' q disk free => ?_
      · have entry := A.quiet.low.table.graph_entry pos last.2.1
        rw [A.quiet.graph, graph] at entry
        rw [inc_same] at last
        rcases keep with held | linked
        · omega
        · rw [Option.some.inj entry] at linked
          exact linked last.2.2
      · rw [dec_inc] at q
        exact ⟨rfl, A.quiet.trans q, disk.trans A.disk, free.trans A.free⟩
    · rw [resolve, if_neg notParent]
      exact ⟨ip, rfl, rfl, A⟩
  | cons name rest ih =>
    rintro ip last s A ⟨n, graph, keep⟩
    have pos : 0 < inc h ip ip := by
      rw [inc_same]
      omega
    unfold namexLoop
    rw [wp_bind]
    refine A.wp_ilock unlocked graph fun s1 l inum => ?_
    simp only [wp_bind, wp_get]
    have dir : isDir (Fs.graph sb s0) (s.itable ip).inum = decide ((s1.din ip).type = tDir) := by
      rw [isDir, graph, l.node]
      rfl
    have look : lookup (Fs.graph sb s0) (s.itable ip).inum name = if (s1.din ip).type = tDir then
        toMap (entries sb s1 (s1.itable ip).inum (s1.din ip)) (nameKey name) else none := by
      rw [lookup, graph, l.node]
      rfl
    rw [resolve]
    refine wp_ite (fun notDir => ?_) fun isDir => ?_
    · rw [dir, decide_eq_false notDir, Bool.not_false, if_pos rfl, wp_bind]
      exact l.wp_iunlockput unlocked keep fun s' q disk free => ⟨rfl, q, disk, free⟩
    have isDir := not_not.mp isDir
    rw [dir, decide_eq_true isDir, Bool.not_true, if_neg Bool.false_ne_true]
    refine wp_ite (fun stop => ?_) fun onward => ?_
    · rw [if_pos stop, wp_bind]
      refine wp_iunlock l.quiet.low pos (.inr (by rw [l.lock, update_self]))
        fun s' q disk free => ?_
      refine ⟨ip, rfl, (q.frame.inum ip pos).trans inum, l.quiet.trans (q.mono fun j hj => pos_inc hj),
        disk.trans l.disk, ?_⟩
      rw [free, l.lock, update_idem, update_eq_self_iff, unlocked]
    rw [if_neg onward, look, if_pos isDir, wp_bind]
    have size : 16 ∣ (s1.din ip).size.toNat := by
      have node : node sb s0 (s.itable ip).inum = s1.din ip := by
        rw [L0.table.node_disk, ← l.disk, ← l.quiet.low.table.node_disk, ← inum,
          l.quiet.low.table.node_valid pos l.valid]
      have alive : Alive sb s0 (s.itable ip).inum := by
        by_contra dead
        rw [Fs.graph, if_neg dead] at graph
        cases graph
      rw [← node]
      exact T.whole _ alive (by rwa [node])
    have free : E .igetNoInodes ∨ ∃ j, inc h ip j = 0 := by
      refine room.imp_right ?_
      rintro ⟨a, b, ne, za, zb⟩
      by_cases eq : ip = a
      · exact ⟨b, by rw [inc_ne fun c => ne (eq ▸ c.symm), zb]⟩
      · exact ⟨a, by rw [inc_ne fun c => eq c.symm, za]⟩
    refine wp_dirlookup l.quiet.low pos l.valid isDir (.inr size) free
      (fun y k j s2 found q disk inum2 free fresh => ?_) fun missing => ?_
    · -- `next` is in the table; `ip` is given back
      rw [toMap, found, map_some, bind_some, wp_bind]
      obtain ⟨valid, din, -⟩ := l.quiet.low.entries_quiet pos l.valid q pos (pos_inc pos) disk
      refine wp_iunlockput_keep q.low (pos_inc pos) valid ?_ (fun last => ?_)
        fun s3 q3 disk3 free3 => ?_
      · rw [free, l.lock, update_self, q.frame.cur]
      · rcases keep with held | linked
        · have more : inc h ip ip ≤ inc (inc h ip) j ip := le_inc
          rw [inc_same] at more
          omega
        · rw [l.node] at linked
          rw [din] at last
          exact linked last.2
      · rw [inc_comm, dec_inc] at q3
        have inum3 : (s3.itable j).inum = y :=
          (q3.frame.inum j (by rw [inc_same]; omega)).trans inum2
        have A3 : At sb h j s0 s3 := by
          refine ⟨(l.quiet.trans (q.mono fun l hl => pos_inc hl)).trans
            (q3.mono fun l hl => pos_inc hl), disk3.trans (disk.trans l.disk), ?_⟩
          rw [free3, free, l.lock, update_idem, update_eq_self_iff, unlocked]
        obtain ⟨m, graph_y, linked⟩ := T.linked _ n k y (nameKey name) graph
          (by rw [l.node]; exact (find_eq_some.mp found).1)
        have keep : 0 < h j ∨ m.nlink ≠ 0 := by
          rcases linked with linked | ⟨j', held, inum'⟩
          · exact .inr linked
          · -- an inode in use has one entry, so the lookup has found that
            have same : j' = j := A3.quiet.low.table.unique j' j (pos_inc held)
              (by rw [inc_same]; omega)
              (((A3.quiet.frame.inum j' held).trans inum').trans inum3.symm)
            exact .inl (same ▸ held)
        have next := ih j name s3 A3 ⟨m, by rwa [inum3], keep⟩
        rwa [inum3] at next
    · rw [toMap, missing, map_none, bind_none, wp_bind]
      exact l.wp_iunlockput unlocked keep fun s' q disk free => ⟨rfl, q, disk, free⟩

def startOf (s : State) (c : Slot) (path : Path) : Nat :=
  if path.bytes.head? = some slash then rootino else (s.itable c).inum

theorem wp_namex (parent : Bool) {path : Path} (L : Low sb h none s) (T : Tree sb h s)
    (unlocked : ∀ i, locks s i = none) (room : E .igetNoInodes ∨ TwoFree h)
    (cwd : s.cwd s.cur = some c) (held : 0 < h c)
    (alive : Alive sb s (s.itable c).inum) : wp (namex sb path parent) E (Returned sb h s
      (resolve (graph sb s) parent (startOf s c path) (components path.bytes) [])) s := by
  unfold namex startOf
  rw [elements_eq_components _ _ le_rfl]
  refine wp_ite (fun root => ?_) fun relative => ?_
  · rw [wp_bind]
    have free : E .igetNoInodes ∨ ∃ j, h j = 0 := room.imp_right fun ⟨a, _, _, za, _⟩ => ⟨a, za⟩
    refine wp_iget L sb.root_lt free fun ip s' q disk inum free _ => ?_
    obtain ⟨n, graph, linked⟩ := T.root
    have run := wp_namexLoop parent L T unlocked room (components path.bytes) ip [] s'
      ⟨q, disk, free⟩ ⟨n, by rwa [inum], .inr linked⟩
    rw [inum] at run
    rwa [if_pos root]
  · rw [Fs.cwd]
    simp only [wp_bind, wp_get, wp_pure]
    rw [cwd]
    refine wp_idup L held fun s' q disk free => ?_
    have inum := q.frame.inum c held
    have run := wp_namexLoop parent L T unlocked room (components path.bytes) c [] s'
      ⟨q, disk, free⟩ ⟨_, by rw [inum, graph, if_pos alive], .inl held⟩
    rw [inum] at run
    rwa [if_neg relative]

/-- The reference counts of `s'` are those of `s`, with one more reference to the entry `r`. -/
def OneMore (r : Option Slot) (s s' : State) : Prop :=
  ∀ i, (s'.itable i).ref = (s.itable i).ref + if r = some i then 1 else 0

theorem Returned.spec (L : Low sb h none s0) (R : Returned sb h s0 found r s) :
    r.map (fun p => ((s.itable p.1).inum, p.2)) = found ∧ OneMore (r.map Prod.fst) s0 s ∧
      s.disk = s0.disk := by
  cases found with
  | none =>
    obtain ⟨rfl, q, disk, -⟩ := R
    refine ⟨rfl, fun i => ?_, disk⟩
    rw [q.low.table.ref_eq, L.table.ref_eq]
    rfl
  | some f =>
    obtain ⟨j, rfl, inum, A⟩ := R
    refine ⟨by rw [map_some, inum], fun i => ?_, A.disk⟩
    rw [A.quiet.low.table.ref_eq, L.table.ref_eq, map_some]
    by_cases eq : i = j
    · rw [eq, inc_same, if_pos rfl]
      rfl
    · rw [inc_ne eq, if_neg fun c => eq (Option.some.inj c).symm]
      rfl

section Small

variable {n : Nat} (unread : Unread s) (disk : s.disk = filesDisk sb n)

include unread disk

end Small

end Namex

end Xv6.Fs
