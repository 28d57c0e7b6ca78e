import Xv6.Fs.ReadWrite
import Xv6.Lib.SlotMap

/-! Directories: with `dirlookup`, `dirlink` and the zeroing of entries a directory is a finite map
from names to inode numbers. -/

namespace Xv6.Fs

open Wp SlotMap Function List

variable {sb : Superblock} {h : Slot → Nat} {s : State}

/-- What a name is compared by: its bytes up to `DIRSIZ` or the first NUL. -/
def nameKey (name : Name) : Name := cstr (name.take dirsiz)

section Entries

theorem length_entries (dir : din.type = tDir) :
    (entries sb s x din).length = din.size.toNat / 16 := by
  rw [entries, if_pos dir, length_map, length_range]

theorem getElem?_entries (dir : din.type = tDir) (lt : k < din.size.toNat / 16) :
    (entries sb s x din)[k]? = some (decode (entryAt sb s x k)) := by
  rw [entries, if_pos dir, List.getElem?_map, List.getElem?_range lt]
  rfl

theorem decode_eq_some :
    decode de = some r ↔ deInum de ≠ 0 ∧ r = (deInum de, cstr (deName de)) := by
  unfold decode
  split
  · rename_i zero
    exact ⟨nofun, fun c => absurd zero c.1⟩
  · rename_i ne
    exact ⟨fun eq => ⟨ne, (Option.some.inj eq).symm⟩, fun c => by rw [c.2]⟩

end Entries

section Lookup

/-- The kernel reads entry `k` of the directory of `i` whole, or the directory ends within it. -/
def Reads (sb : Superblock) (i : Slot) (E : Stop → Prop) (s : State) (k : Nat) : Prop :=
  ∀ Q : Int × List UInt8 → State → Prop,
    (16 * (k + 1) ≤ (s.din i).size.toNat →
      deInum (entryAt sb s (s.itable i).inum k) < sb.ninodes →
      Q (16, entryAt sb s (s.itable i).inum k) s) →
    (¬16 * (k + 1) ≤ (s.din i).size.toNat → ∀ r de, r ≠ 16 → Q (r, de) s) →
    wp (readDirent sb i k) E Q s

theorem Low.reads (L : Low sb h none s) (hi : 0 < h i) (v : (s.itable i).valid = true)
    (dir : (s.din i).type = tDir) (lt : 16 * k < (s.din i).size.toNat) : Reads sb i E s k := by
  have node := L.table.node_valid hi v
  refine fun Q whole short => wp_readDirent L.base hi v lt (fun inside => whole inside ?_) short
  exact L.volume.ranged _ k (L.table.alive hi v) (by rwa [node]) (by rw [node]; omega)

/-- The entries of the directory in entry `i` of the inode table. -/
abbrev dirEntries (sb : Superblock) (i : Slot) (s : State) : List (Option (Nat × Name)) :=
  entries sb s (s.itable i).inum (s.din i)

section

variable {Q : Option (Slot × Nat) → State → Prop} (T : Table sb h none s)
  (dir : (s.din i).type = tDir)
  (reads : ∀ k, 16 * k < (s.din i).size.toNat →
    Absent (nameKey name) (dirEntries sb i s) k → Reads sb i E s k)
  (whole : E .dirlookupRead ∨ 16 ∣ (s.din i).size.toNat) (room : E .igetNoInodes ∨ ∃ j, h j = 0)
  (found : ∀ x k j s', find (nameKey name) (dirEntries sb i s) = some (x, k) →
    Still sb h (inc h j) s s' → (s'.itable j).inum = x →
    locks s' = locks s → (h j = 0 → (s'.itable j).valid = false) → Q (some (j, k)) s')
  (missing : find (nameKey name) (dirEntries sb i s) = none → Q none s)

include T dir reads whole room found missing

theorem Table.wp_dirlookupLoop (m : Nat) : ∀ k, k + m = direntCount (s.din i).size →
    Absent (nameKey name) (dirEntries sb i s) k →
    wp (dirlookupLoop sb i name (List.range' k m)) E Q s := by
  induction m with
  | zero =>
    intro k count absent
    refine missing (find_eq_none.mpr fun j lt w => absent j ?_ w)
    rw [length_entries dir] at lt
    simp only [direntCount] at count
    omega
  | succ m ih =>
    intro k count absent
    simp only [direntCount] at count
    rw [List.range'_succ, dirlookupLoop, wp_bind]
    refine reads k (by omega) absent _ (fun inside range => ?_) fun past r de short => ?_
    · have at_k : (dirEntries sb i s)[k]? = some (decode (entryAt sb s (s.itable i).inum k)) :=
        getElem?_entries dir (by omega)
      have next (other : ∀ w, decode (entryAt sb s (s.itable i).inum k) ≠ some (w, nameKey name)) :
          wp (dirlookupLoop sb i name (List.range' (k + 1) m)) E Q s := by
        refine ih (k + 1) (by simp only [direntCount]; omega) fun j lt w => ?_
        by_cases before : j < k
        · exact absent j before w
        · obtain rfl : j = k := by omega
          rw [at_k]
          exact fun eq => other w (Option.some.inj eq)
      simp only
      rw [if_neg (by simp)]
      refine wp_ite (fun zero => next fun w eq => (decode_eq_some.mp eq).1 zero) fun ne => ?_
      refine wp_ite (fun same => ?_) fun differs => next fun w eq => differs ?_
      · have key : decode (entryAt sb s (s.itable i).inum k) =
            some (deInum (entryAt sb s (s.itable i).inum k), nameKey name) :=
          decode_eq_some.mpr ⟨ne, by rw [nameKey, of_decide_eq_true same]⟩
        rw [wp_bind]
        refine T.wp_iget range room fun j s' q inum same' fresh => ?_
        exact found _ k j s' (find_eq_some.mpr ⟨by rw [at_k, key], absent⟩) q inum same' fresh
      · have := congrArg Prod.snd (decode_eq_some.mp eq).2
        exact decide_eq_true this
    · simp only
      rw [if_pos short]
      rcases whole with e | aligned
      · exact e
      · -- the directory does not end within an entry
        omega

theorem Table.wp_dirlookup : wp (dirlookup sb i name) E Q s := by
  unfold dirlookup
  simp only [wp_bind, wp_get]
  rw [if_neg (fun ne => ne dir), range_eq_range']
  exact T.wp_dirlookupLoop dir reads whole room found missing _ 0 (Nat.zero_add _)
    fun j lt => absurd lt (Nat.not_lt_zero j)

end

theorem wp_dirlookup (L : Low sb h none s)
    (hi : 0 < h i) (v : (s.itable i).valid = true) (dir : (s.din i).type = tDir)
    (whole : E .dirlookupRead ∨ 16 ∣ (s.din i).size.toNat)
    (room : E .igetNoInodes ∨ ∃ j, h j = 0)
    (found : ∀ x k j s', find (nameKey name) (dirEntries sb i s) = some (x, k) →
      Quiet sb h (inc h j) s s' → s'.disk = s.disk → (s'.itable j).inum = x →
      locks s' = locks s → (h j = 0 → (s'.itable j).valid = false) → Q (some (j, k)) s')
    (missing : find (nameKey name) (dirEntries sb i s) = none → Q none s) :
    wp (dirlookup sb i name) E Q s :=
  L.table.wp_dirlookup dir (fun _ lt _ => L.reads hi v dir lt) whole room
    (fun x k j s' first q => found x k j s' first (L.still q) q.disk) missing

end Lookup

section Link

theorem wp_dirlinkLoop (L : Low sb h none s)
    (hi : 0 < h i) (v : (s.itable i).valid = true) (dir : (s.din i).type = tDir)
    (whole : E .dirlinkRead ∨ 16 ∣ (s.din i).size.toNat)
    (empty : ∀ k, (dirEntries sb i s)[k]? = some none → Q k s)
    (none_ : 16 ∣ (s.din i).size.toNat →
      (∀ k : Nat, (dirEntries sb i s)[k]? ≠ some none) →
      Q (direntCount (s.din i).size) s) (m : Nat) :
    ∀ k, k + m = direntCount (s.din i).size →
    (∀ l, l < k → (dirEntries sb i s)[l]? ≠ some none ∧
      16 * (l + 1) ≤ (s.din i).size.toNat) →
    wp (dirlinkLoop sb i (direntCount (s.din i).size) (List.range' k m)) E Q s := by
  induction m with
  | zero =>
    intro k count used
    simp only [direntCount] at count
    refine none_ ?_ fun l eq => ?_
    · rcases k with - | k
      · omega
      · have := (used k (by omega)).2
        omega
    · have := (List.getElem?_eq_some_iff.mp eq).1
      rw [length_entries dir] at this
      exact (used l (by omega)).1 eq
  | succ m ih =>
    intro k count used
    simp only [direntCount] at count
    rw [List.range'_succ, dirlinkLoop, wp_bind]
    refine wp_readDirent L.base hi v (by omega) (fun inside => ?_) fun past r de short => ?_
    · have at_k : (dirEntries sb i s)[k]? = some (decode (entryAt sb s (s.itable i).inum k)) :=
        getElem?_entries dir (by omega)
      simp only
      rw [if_neg (by simp)]
      refine wp_ite (fun zero => ?_) fun ne => ?_
      · refine empty k ?_
        rw [at_k, decode, if_pos zero]
      · refine ih (k + 1) (by simp only [direntCount]; omega) fun l lt => ?_
        by_cases before : l < k
        · exact used l before
        · obtain rfl : l = k := by omega
          rw [at_k, decode, if_neg ne]
          exact ⟨nofun, inside⟩
    · simp only
      rw [if_pos short]
      rcases whole with e | aligned
      · exact e
      · omega

/-- The directory of entry `i` has no empty entry and no room for another at its end. -/
def Full (sb : Superblock) (i : Slot) (s : State) : Prop :=
  (∀ k : Nat, (entries sb s (s.itable i).inum (s.din i))[k]? ≠ some none) ∧
    (maxFile * bsize < (s.din i).size.toNat + 16 ∨
      (freeBlocks sb s).card < (wanted sb s (s.itable i).inum (s.din i).size.toNat 16).card)

/-- An entry is written within a directory, or at its end if there is room. -/
theorem wp_putEntry (L : Low sb h none s) (hi : 0 < h i)
    (v : (s.itable i).valid = true) (dir : (s.din i).type = tDir)
    (len : de.length = 16) (range : deInum de < sb.ninodes)
    (hk : 16 * (k + 1) ≤ (s.din i).size.toNat ∨ 16 * k = (s.din i).size.toNat)
    (done : ∀ s', Low sb h none s' → Frame sb h s s' →
      graph sb s' = update (graph sb s) (s.itable i).inum (some ⟨(s.din i).type,
        (s.din i).nlink, setEnt (dirEntries sb i s) k (decode de)⟩) →
      (s'.din i).size.toNat = max (s.din i).size.toNat (16 * k + 16) →
      (∀ j, j ≠ i → s'.itable j = s.itable j) →
      (16 * k = (s.din i).size.toNat → (s.din i).size.toNat + 16 ≤ maxFile * bsize ∧
        (wanted sb s (s.itable i).inum (s.din i).size.toNat 16).card ≤ (freeBlocks sb s).card) →
      Q 16 s')
    (fail : ∀ r s', r ≠ 16 → Quiet sb h h s s' → (s'.din i).size.toNat = (s.din i).size.toNat →
      (∀ j, j ≠ i → s'.itable j = s.itable j) → 16 * k = (s.din i).size.toNat →
      maxFile * bsize < (s.din i).size.toNat + 16 ∨
        (freeBlocks sb s).card < (wanted sb s (s.itable i).inum (s.din i).size.toNat 16).card →
      Q r s') :
    wp (writei sb i (kernelSrc de) (UInt32.ofNat (16 * k)) 16) E Q s := by
  have a := L.table.alive hi v
  have node := L.table.node_valid hi v
  have le := L.volume.blocks.size_le a
  rw [node] at le
  have off : (UInt32.ofNat (16 * k)).toNat = 16 * k := toNat_ofNat_offset (by omega)
  have n : (16 : UInt32).toNat = 16 := rfl
  by_cases fits : 16 * k + 16 ≤ maxFile * bsize
  · have graph_side : wp (writei sb i (kernelSrc de) (UInt32.ofNat (16 * k)) 16) E (fun r s' =>
        r ≠ 16 ∧ Quiet sb h h s s' ∨ r = 16 ∧ Low sb h none s' ∧ Frame sb h s s' ∧
          graph sb s' = update (graph sb s) (s.itable i).inum (some ⟨(s.din i).type,
            (s.din i).nlink,
            setEnt (dirEntries sb i s) k (decode de)⟩)) s :=
      wp_writei_entry L hi v dir len range hk (fun r s' ne q => .inl ⟨ne, q⟩)
        fun s' low frame graph => .inr ⟨rfl, low, frame, graph⟩
    have block_side : wp (writei sb i (kernelSrc de) (UInt32.ofNat (16 * k)) 16) E (fun r s' =>
        ∃ tot p : Nat, r = tot ∧ Written sb h i (kernelSrc de) (16 * k) 16 tot p s s') s :=
      wp_writei_placed L.base hi v (kernelSrc de) (by omega) (by omega) fun tot p s' W =>
        ⟨tot, p, rfl, by rwa [off, n] at W⟩
    refine (graph_side.and block_side).mono ?_ fun _ => id
    rintro r s' ⟨outcome, tot, p, rfl, W⟩
    have total := W.le
    have size := W.size
    rw [node, ← W.entry.1, W.base.table.node_valid hi W.entry.2] at size
    rcases outcome with ⟨ne, q⟩ | ⟨eq, low, frame, graph⟩
    · -- the entry would be there if the blocks were enough
      have short : ¬(wanted sb s (s.itable i).inum (16 * k) 16).card ≤ (freeBlocks sb s).card :=
        fun enough => ne (by rw [W.enough L.base (fun k _ => nofun) enough]; rfl)
      have atEnd : 16 * k = (s.din i).size.toNat := by
        by_contra notEnd
        refine short ?_
        rw [wanted_eq_empty a fun bn lt =>
          (L.volume.blocks.slot_filled a (by rw [node]; omega)).2]
        exact Nat.zero_le _
      have none : tot = 0 := by
        cases W.ended with
        | done all _ => exact absurd (congrArg Nat.cast all) ne
        | fault _ unreadable _ _ => cases unreadable
        | full lt _ slot _ =>
          -- the sixteen bytes go to one block
          by_contra some
          have block : (16 * k + tot) / bsize = 16 * k / bsize := by
            simp only [bsize]
            omega
          rw [block] at slot
          exact W.present (16 * k) le_rfl (by omega) slot
      have same : (s'.din i).size.toNat = (s.din i).size.toNat := by
        rw [size, none]
        omega
      refine fail tot s' ne q same W.entries atEnd (.inr ?_)
      rw [← atEnd]
      omega
    · have all : tot = 16 := by exact_mod_cast eq
      subst all
      obtain rfl : p = 0 := by omega
      refine done s' low frame graph size W.entries fun atEnd => ⟨by omega, ?_⟩
      rw [← atEnd]
      exact W.space L.base a (by rw [node]; omega)
  · have large : (UInt32.ofNat (16 * k) + 16).toNat > maxFile * bsize := by
      have add : (UInt32.ofNat (16 * k) + 16).toNat = 16 * k + 16 := by
        rw [UInt32.toNat_add, off]
        simp only [maxFile, ndirect, nindirect, bsize] at le
        exact Nat.mod_eq_of_lt (by simp only [UInt32.reduceToNat]; omega)
      omega
    rw [wp_ok (writei_outside (.inr large))]
    exact fail (-1) s (by decide) L.quietRefl rfl (fun _ _ => rfl) (by omega) (.inl (by omega))

theorem cstr_append_zeroes (bytes : List UInt8) (n : Nat) :
    cstr (bytes ++ List.replicate n 0) = cstr bytes := by
  unfold cstr
  induction bytes with
  | nil => cases n <;> simp [replicate_succ]
  | cons b bytes ih =>
    rw [cons_append, takeWhile_cons, takeWhile_cons, ih]

theorem length_dirent (inum : Nat) (name : Name) : (dirent inum name).length = 16 := by
  simp only [dirent, dirsiz, length_append, length_cons, length_nil,
    length_take, length_replicate]
  omega

theorem deInum_dirent (lt : inum < 2 ^ 16) : deInum (dirent inum name) = inum := by
  simp only [deInum, dirent, append_assoc, cons_append, getD_cons_zero,
    getD_cons_succ, UInt8.toNat_ofNat']
  omega

theorem decode_dirent (pos : inum ≠ 0) (lt : inum < 2 ^ 16) :
    decode (dirent inum name) = some (inum, nameKey name) := by
  have rest : deName (dirent inum name) =
      name.take dirsiz ++ List.replicate (dirsiz - name.length) 0 := by
    have length : (name.take dirsiz ++ List.replicate (dirsiz - name.length) (0 : UInt8)).length =
        dirsiz := by
      simp only [length_append, length_take, length_replicate]
      omega
    rw [deName, dirent, append_assoc, drop_append_of_le_length (by simp)]
    exact take_of_length_le (le_of_eq length)
  rw [decode_eq_some]
  exact ⟨by rwa [deInum_dirent lt], by rw [deInum_dirent lt, rest, cstr_append_zeroes]; rfl⟩

/-- Entry `k` is where `dirlink` puts a new entry: an empty one, or the end of a directory that has
none. -/
def Place (es : List (Option (Nat × Name))) (k : Nat) : Prop :=
  es[k]? = some none ∨ k = es.length ∧ ∀ l : Nat, es[l]? ≠ some none

theorem wp_dirlink (L : Low sb h none s) (hi : 0 < h i)
    (v : (s.itable i).valid = true) (dir : (s.din i).type = tDir)
    (whole : (E .dirlookupRead ∧ E .dirlinkRead) ∨ 16 ∣ (s.din i).size.toNat)
    (room : E .igetNoInodes ∨ ∃ j, h j = 0) (pos : inum ≠ 0) (lt : inum < sb.ninodes)
    (present : ∀ s', find (nameKey name) (dirEntries sb i s) ≠ none →
      Quiet sb h h s s' → s'.disk = s.disk → Q (-1) s')
    (done : ∀ k s', find (nameKey name) (dirEntries sb i s) = none →
      Place (dirEntries sb i s) k → ¬Full sb i s →
      Low sb h none s' → Frame sb h s s' →
      graph sb s' = update (graph sb s) (s.itable i).inum (some ⟨(s.din i).type,
        (s.din i).nlink, setEnt (dirEntries sb i s) k
          (some (inum, nameKey name))⟩) →
      (s'.din i).size.toNat = max (s.din i).size.toNat (16 * k + 16) →
      (∀ j, j ≠ i → s'.itable j = s.itable j) → Q 0 s')
    (full : ∀ s', find (nameKey name) (dirEntries sb i s) = none →
      Full sb i s → Quiet sb h h s s' → (s'.din i).size.toNat = (s.din i).size.toNat →
      (∀ j, j ≠ i → s'.itable j = s.itable j) → Q (-1) s') : wp (dirlink sb i name inum) E Q s := by
  have lt16 : inum < 2 ^ 16 := lt_of_lt_of_le lt sb.ninodes_le
  unfold dirlink
  rw [wp_bind]
  refine wp_dirlookup L hi v dir (whole.imp_left And.left) room
    (fun x k j s' found q disk inum' _ fresh => ?_) fun missing => ?_
  · -- the reference that `dirlookup` took is dropped
    have pos' : 0 < inc h j j := by
      rw [inc_same]
      omega
    simp only [wp_bind]
    refine wp_iput_keep q.low pos' (fun last => ?_) fun s'' q' disk' _ => ?_
    · rw [inc_same] at last
      rw [fresh (by omega)] at last
      exact absurd last.2.1 Bool.noConfusion
    · rw [dec_inc] at q'
      exact present s'' (by rw [found]; rintro ⟨⟩) (q.trans q') (disk'.trans disk)
  · simp only [wp_bind, wp_get]
    rw [range_eq_range']
    have length : (dirEntries sb i s).length = (s.din i).size.toNat / 16 := length_entries dir
    refine wp_dirlinkLoop L hi v dir (whole.imp_left And.right) (fun k empty => ?_)
      (fun aligned none_ => ?_) _ 0 (Nat.zero_add _) (by intros; contradiction)
    · have inside := (List.getElem?_eq_some_iff.mp empty).1
      refine wp_putEntry L hi v dir (length_dirent inum name) (by rwa [deInum_dirent lt16])
        (.inl (by omega)) (fun s' low frame graph size others _ => ?_)
        fun r s' _ _ _ _ atEnd _ => absurd atEnd (by omega)
      rw [decode_dirent pos lt16] at graph
      exact done k s' missing (.inl empty) (fun c => c.1 k empty) low frame graph size others
    · have count : direntCount (s.din i).size = (s.din i).size.toNat / 16 := by
        simp only [direntCount]
        omega
      rw [count]
      refine wp_putEntry L hi v dir (length_dirent inum name) (by rwa [deInum_dirent lt16])
        (.inr (by omega)) (fun s' low frame graph size others space => ?_)
        fun r s' ne q size others _ space => ?_
      · rw [decode_dirent pos lt16] at graph
        have space := space (by omega)
        refine done _ s' missing (.inr ⟨length.symm, none_⟩) (fun c => ?_) low frame graph size
          others
        have noRoom := c.2
        omega
      · rw [if_neg ne]
        exact full s' missing ⟨none_, space⟩ q size others

end Link

/-! A directory that the kernel holds locked, with the calls that change it, as a map. -/

section Map

/-- Entry `i` holds a directory with whole entries and no name twice, and there is a free entry for
what it finds. -/
structure Dir (sb : Superblock) (h : Slot → Nat) (i : Slot) (s : State) : Prop where
  low : Low sb h none s
  held : 0 < h i
  valid : (s.itable i).valid = true
  dir : (s.din i).type = tDir
  whole : 16 ∣ (s.din i).size.toNat
  distinct : Distinct (entries sb s (s.itable i).inum (s.din i))
  room : ∃ j, h j = 0

/-- The directory as a map from names to inode numbers. -/
def dirMap (sb : Superblock) (i : Slot) (s : State) : Name → Option Nat :=
  toMap (entries sb s (s.itable i).inum (s.din i))

theorem Low.entries_after {base h' : Slot → Nat} (low : Low sb h' none s') (hi : 0 < base i)
    (hi' : 0 < h' i) (v : (s.itable i).valid = true) (F : Frame sb base s s')
    (g : graph sb s' (s.itable i).inum = some ⟨type, nlink, ents⟩) :
    (s'.itable i).valid = true ∧ (s'.din i).type = type ∧
      entries sb s' (s'.itable i).inum (s'.din i) = ents := by
  have v' := F.valid i hi v
  have e := low.table.graph_entry hi' v'
  rw [F.inum i hi, g] at e
  have e := Option.some.inj e
  rw [Node.mk.injEq] at e
  rw [F.inum i hi]
  exact ⟨v', e.1.symm, e.2.2.symm⟩

theorem Low.entries_quiet {base h' : Slot → Nat} (L : Low sb h none s) (hi : 0 < h i)
    (v : (s.itable i).valid = true) (q : Quiet sb base h' s s') (hb : 0 < base i) (hi' : 0 < h' i)
    (disk : s'.disk = s.disk) :
    (s'.itable i).valid = true ∧ s'.din i = s.din i ∧
      entries sb s' (s'.itable i).inum (s'.din i) = entries sb s (s.itable i).inum (s.din i) := by
  obtain ⟨v', -, ents⟩ := q.low.entries_after hb hi' v q.frame
    (by rw [q.graph]; exact L.table.graph_entry hi v)
  refine ⟨v', ?_, ents⟩
  rw [q.low.table.clean i hi' v' nofun, L.table.clean i hi v nofun, disk, q.frame.inum i hb]

theorem Dir.quiet (D : Dir sb h i s) (q : Quiet sb h h s s')
    (size : (s'.din i).size.toNat = (s.din i).size.toNat) :
    Dir sb h i s' ∧ dirMap sb i s' = dirMap sb i s := by
  obtain ⟨v, dir, ents⟩ := q.low.entries_after D.held D.held D.valid q.frame
    (by rw [q.graph]; exact D.low.table.graph_entry D.held D.valid)
  exact ⟨⟨q.low, D.held, v, dir.trans D.dir, by rw [size]; exact D.whole,
    by rw [ents]; exact D.distinct, D.room⟩, by rw [dirMap, dirMap, ents]⟩

def clearEntry (sb : Superblock) (dp : Slot) (k : Nat) : M Unit := do
  let r ← writei sb dp (kernelSrc (List.replicate 16 0)) (UInt32.ofNat (16 * k)) 16
  if r ≠ 16 then throw .unlinkWritei

theorem wp_clearEntry (L : Low sb h none s) (hi : 0 < h i)
    (v : (s.itable i).valid = true) (dir : (s.din i).type = tDir)
    (inside : 16 * (k + 1) ≤ (s.din i).size.toNat)
    (post : ∀ s', Low sb h none s' → Frame sb h s s' →
      graph sb s' = update (graph sb s) (s.itable i).inum (some ⟨(s.din i).type,
        (s.din i).nlink, setEnt (dirEntries sb i s) k none⟩) →
      (s'.din i).size.toNat = (s.din i).size.toNat → (∀ j, j ≠ i → s'.itable j = s.itable j) →
      Q () s') :
    wp (clearEntry sb i k) E Q s := by
  have range : deInum (List.replicate 16 0) < sb.ninodes := lt_trans (by decide) sb.root_lt
  unfold clearEntry
  rw [wp_bind]
  refine wp_putEntry L hi v dir (by simp) range (.inl inside)
    (fun s' low frame graph size others _ => ?_)
    fun r s' _ _ _ _ atEnd _ => absurd atEnd (by omega)
  rw [if_neg fun ne => ne rfl]
  exact post s' low frame graph (by rw [size]; omega) others

/-- From `s` to `s'` entry `k`, which has the name, is zeroed; entry `j` of the inode table holds
what it named. -/
structure Cleared (sb : Superblock) (h : Slot → Nat) (i j : Slot) (k : Nat) (name : Name)
    (s s' : State) : Prop where
  low : Low sb (inc h j) none s'
  frame : Frame sb h s s'
  valid : (s'.itable i).valid = true
  dir : (s'.din i).type = tDir
  size : (s'.din i).size.toNat = (s.din i).size.toNat
  entries : entries sb s' (s'.itable i).inum (s'.din i) =
    (entries sb s (s.itable i).inum (s.din i)).set k none
  inside : k < (Fs.entries sb s (s.itable i).inum (s.din i)).length
  map : dirMap sb i s' = update (dirMap sb i s) (nameKey name) none
  fresh : h j = 0 → (s'.itable j).valid = false

theorem Dir.wp_lookup {Q : Option (Slot × Nat) → State → Prop} (D : Dir sb h i s)
    (found : ∀ j k s', dirMap sb i s (nameKey name) = some (s'.itable j).inum →
      wp (clearEntry sb i k) (fun _ => False) (fun _ t => Cleared sb h i j k name s t) s' →
      Q (some (j, k)) s')
    (missing : dirMap sb i s (nameKey name) = none → Q none s) :
    wp (dirlookup sb i name) E Q s := by
  refine wp_dirlookup D.low D.held D.valid D.dir (.inr D.whole) (.inr D.room)
    (fun x k j s' first q disk inum _ fresh => ?_) fun none => ?_
  · have at_k := (find_eq_some.mp first).1
    have inside := (List.getElem?_eq_some_iff.mp at_k).1
    have length : (dirEntries sb i s).length = (s.din i).size.toNat / 16 := length_entries D.dir
    have pos : 0 < inc h j i := pos_inc D.held
    obtain ⟨v, din, ents⟩ := D.low.entries_quiet D.held D.valid q D.held pos disk
    refine found j k s' ?_ ?_
    · rw [dirMap, toMap, first, inum]
      rfl
    · refine wp_clearEntry q.low pos v (by rw [din]; exact D.dir) (by rw [din]; omega)
        fun t low frame graph size others => ?_
      have frame := q.frame.trans (frame.mono fun l hl => pos_inc hl)
      rw [dirEntries, ents, q.graph, q.frame.inum i D.held, din] at graph
      obtain ⟨v, dir, ents⟩ := low.entries_after D.held pos D.valid frame
        (by rw [graph, update_self])
      rw [setEnt, if_pos inside] at ents
      have map : dirMap sb i t = update (dirMap sb i s) (nameKey name) Option.none := by
        have erase := toMap_erase D.distinct (le_of_lt inside) at_k
        rw [put, if_pos inside] at erase
        rw [dirMap, ents, erase]
        rfl
      refine ⟨low, frame, v, dir.trans D.dir, by rw [size, din], ents, inside, map, fun zero => ?_⟩
      have ne : j ≠ i := fun eq => by
        rw [eq] at zero
        exact absurd D.held (by omega)
      rw [others j ne]
      exact fresh zero
  · refine missing ?_
    rw [dirMap, toMap, none]
    rfl

theorem Dir.wp_link (D : Dir sb h i s) (pos : inum ≠ 0) (lt : inum < sb.ninodes) :
    wp (dirlink sb i name inum) E (fun r s' => Dir sb h i s' ∧
      (r = -1 ∧ dirMap sb i s' = dirMap sb i s ∧
          (dirMap sb i s (nameKey name) ≠ none ∨ Full sb i s) ∨
        r = 0 ∧ dirMap sb i s' = update (dirMap sb i s) (nameKey name) (some inum) ∧
          dirMap sb i s (nameKey name) = none ∧ ¬Full sb i s)) s := by
  have absent : dirMap sb i s (nameKey name) = none ↔
      find (nameKey name) (dirEntries sb i s) = none :=
    Option.map_eq_none_iff
  refine wp_dirlink D.low D.held D.valid D.dir (.inr D.whole) (.inr D.room) pos lt
    (fun s' present q disk => ?_) (fun k s' missing place grows low frame graph size others => ?_)
    fun s' missing full q size others => ?_
  · have din := (D.low.entries_quiet D.held D.valid q D.held D.held disk).2.1
    obtain ⟨D', map⟩ := D.quiet q (by rw [din])
    exact ⟨D', .inl ⟨rfl, map, .inl (absent.not.mpr present)⟩⟩
  · have missing := absent.mpr missing
    obtain ⟨v, dir, ents⟩ := low.entries_after D.held D.held D.valid frame
      (by rw [graph, update_self])
    have le : k ≤ (dirEntries sb i s).length := by
      rcases place with empty | ⟨last, _⟩
      · exact le_of_lt (List.getElem?_eq_some_iff.mp empty).1
      · exact le_of_eq last
    have unused : ∀ w key, (dirEntries sb i s)[k]? ≠ some (some (w, key)) := by
      intro w key eq
      rcases place with empty | ⟨last, _⟩
      · rw [empty] at eq
        cases eq
      · rw [last, List.getElem?_eq_none le_rfl] at eq
        cases eq
    have whole : 16 ∣ (s'.din i).size.toNat := by
      have old := D.whole
      rw [size]
      omega
    refine ⟨⟨low, D.held, v, dir.trans D.dir, whole, ?_, D.room⟩, .inr ⟨rfl, ?_, missing, grows⟩⟩
    · rw [ents]
      exact distinct_insert D.distinct le missing
    · rw [dirMap, ents]
      exact toMap_insert D.distinct le unused missing
  · obtain ⟨D', map⟩ := D.quiet q size
    exact ⟨D', .inl ⟨rfl, map, .inr full⟩⟩

/-- The removal of a name as in `sys_unlink`. -/
def removeName (sb : Superblock) (dp : Slot) (name : Name) : M Int := do
  match ← dirlookup sb dp name with
  | none => return -1
  | some (ip, k) =>
    clearEntry sb dp k
    iput sb ip
    return 0

theorem Dir.wp_remove (D : Dir sb h i s) :
    wp (removeName sb i name) (fun _ => False) (fun r s' => Dir sb h i s' ∧
      (r = -1 ∧ dirMap sb i s' = dirMap sb i s ∧ dirMap sb i s (nameKey name) = none ∨
        r = 0 ∧ dirMap sb i s' = update (dirMap sb i s) (nameKey name) none ∧
          dirMap sb i s (nameKey name) ≠ none)) s := by
  unfold removeName
  rw [wp_bind]
  refine D.wp_lookup (fun j k s' found clear => ?_) fun missing => ?_
  · simp only [wp_bind]
    refine clear.mono (fun _ t C => ?_) fun _ => id
    have pos : 0 < inc h j j := by
      rw [inc_same]
      omega
    refine wp_iput_keep C.low pos (fun last => ?_) fun t' q disk _ => ?_
    · rw [inc_same] at last
      rw [C.fresh (by omega)] at last
      exact absurd last.2.1 Bool.noConfusion
    · rw [dec_inc] at q
      obtain ⟨v, din, ents⟩ :=
        C.low.entries_quiet (pos_inc D.held) C.valid q D.held D.held disk
      have whole : 16 ∣ (t'.din i).size.toNat := by
        rw [din, C.size]
        exact D.whole
      have distinct : Distinct (entries sb t' (t'.itable i).inum (t'.din i)) := by
        have erase := distinct_erase D.distinct (le_of_lt C.inside)
        rw [put, if_pos C.inside] at erase
        rwa [ents, C.entries]
      refine ⟨⟨q.low, D.held, v, by rw [din]; exact C.dir, whole, distinct, D.room⟩,
        .inr ⟨rfl, ?_, by rw [found]; rintro ⟨⟩⟩⟩
      rw [dirMap, ents]
      exact C.map
  · exact ⟨D, .inl ⟨rfl, rfl, missing⟩⟩

/-- A call that changes a directory. -/
inductive DirOp where
  | link (name : Name) (inum : Nat)
  | unlink (name : Name)
  deriving DecidableEq

def DirOp.Proper (sb : Superblock) : DirOp → Prop
  | link _ inum => inum ≠ 0 ∧ inum < sb.ninodes
  | unlink _ => True

instance (sb : Superblock) : DecidablePred (DirOp.Proper sb)
  | .link _ inum => inferInstanceAs (Decidable (inum ≠ 0 ∧ inum < sb.ninodes))
  | .unlink _ => inferInstanceAs (Decidable True)

def DirOp.perform (sb : Superblock) (dp : Slot) : DirOp → M Int
  | link name inum => dirlink sb dp name inum
  | unlink name => removeName sb dp name

def performAll (sb : Superblock) (dp : Slot) : List DirOp → M (List Int)
  | [] => return []
  | op :: ops => return (← op.perform sb dp) :: (← performAll sb dp ops)

/-- The map after a call that returned `r`. -/
def DirOp.record (m : Name → Option Nat) : DirOp × Int → Name → Option Nat
  | (link name inum, r) => if r = 0 then update m (nameKey name) (some inum) else m
  | (unlink name, r) => if r = 0 then update m (nameKey name) none else m

theorem Dir.wp_perform (D : Dir sb h i s) (proper : op.Proper sb) :
    wp (op.perform sb i) (fun _ => False)
      (fun r s' => Dir sb h i s' ∧ dirMap sb i s' = DirOp.record (dirMap sb i s) (op, r)) s := by
  cases op with
  | link name inum =>
    refine (D.wp_link proper.1 proper.2).mono ?_ fun _ => id
    rintro r s' ⟨D', ⟨rfl, map, -⟩ | ⟨rfl, map, -⟩⟩
    · exact ⟨D', map⟩
    · exact ⟨D', map⟩
  | unlink name =>
    refine D.wp_remove.mono ?_ fun _ => id
    rintro r s' ⟨D', ⟨rfl, map, -⟩ | ⟨rfl, map, -⟩⟩
    · exact ⟨D', map⟩
    · exact ⟨D', map⟩

theorem Dir.wp_performAll (D : Dir sb h i s) (proper : ∀ op ∈ ops, op.Proper sb) :
    wp (performAll sb i ops) (fun _ => False) (fun rs s' => Dir sb h i s' ∧
      dirMap sb i s' = (ops.zip rs).foldl DirOp.record (dirMap sb i s)) s := by
  induction ops generalizing s with
  | nil => exact ⟨D, rfl⟩
  | cons op ops ih =>
    unfold performAll
    rw [wp_bind]
    refine (D.wp_perform (proper op (mem_cons_self ..))).mono ?_ fun _ => id
    rintro r t ⟨D', map⟩
    rw [wp_bind]
    refine (ih D' fun op' mem => proper op' (mem_cons_of_mem op mem)).mono ?_ fun _ => id
    rintro rs s' ⟨D'', map'⟩
    refine ⟨D'', ?_⟩
    rw [map', map]
    rfl

theorem Dir.range (D : Dir sb h i s) (found : dirMap sb i s name = some x) :
    0 < x ∧ x < sb.ninodes := by
  obtain ⟨k, at_k⟩ := (toMap_eq_some D.distinct).mp found
  have inside := (List.getElem?_eq_some_iff.mp at_k).1
  rw [length_entries D.dir] at inside
  rw [getElem?_entries D.dir inside] at at_k
  obtain ⟨ne, eq⟩ := decode_eq_some.mp (Option.some.inj at_k)
  have node := D.low.table.node_valid D.held D.valid
  have lt := D.low.volume.ranged (s.itable i).inum k (D.low.table.alive D.held D.valid)
    (by rw [node]; exact D.dir) (by rw [node]; omega)
  have num : x = _ := congrArg Prod.fst eq
  rw [num]
  exact ⟨Nat.pos_of_ne_zero ne, lt⟩

/-- After any calls of `dirlink` and removals the directory is the map that they make of it.
`dirlookup` finds what the map has, at an entry whose zeroing removes this name only; `dirlink`
fails if and only if the name is there or there is no room, and then leaves the map. -/
theorem directory_is_map (D : Dir sb h i s) (ops : List DirOp)
    (proper : ∀ op ∈ ops, op.Proper sb) :
    ∃ rs t, performAll sb i ops s = .ok (rs, t) ∧
      dirMap sb i t = (ops.zip rs).foldl DirOp.record (dirMap sb i s) ∧
      (∀ name x, dirMap sb i t name = some x → 1 ≤ x ∧ x ≤ 65535) ∧
      (∀ name, dirMap sb i t (nameKey name) = none → dirlookup sb i name t = .ok (none, t)) ∧
      (∀ name x, dirMap sb i t (nameKey name) = some x → ∃ j k t',
        dirlookup sb i name t = .ok (some (j, k), t') ∧ (t'.itable j).inum = x ∧
        ∃ t'', clearEntry sb i k t' = .ok ((), t'') ∧
          entries sb t'' (t''.itable i).inum (t''.din i) =
            (entries sb t (t.itable i).inum (t.din i)).set k none ∧
          dirMap sb i t'' = update (dirMap sb i t) (nameKey name) none) ∧
      (∀ name inum, (DirOp.link name inum).Proper sb → ∃ r t',
        dirlink sb i name inum t = .ok (r, t') ∧ (r = 0 ∨ r = -1) ∧
        (r = -1 ↔ dirMap sb i t (nameKey name) ≠ none ∨ Full sb i t) ∧
        dirMap sb i t' = DirOp.record (dirMap sb i t) (.link name inum, r)) := by
  obtain ⟨rs, t, ok, D', map⟩ := (D.wp_performAll proper).exists_ok
  refine ⟨rs, t, ok, map, fun name x found => ?_, fun name missing => ?_,
    fun name x found => ?_, fun name inum proper => ?_⟩
  · have range := D'.range found
    have le := sb.ninodes_le
    omega
  · have look : wp (dirlookup sb i name) (fun _ => False) (fun r t' => r = none ∧ t' = t) t :=
      D'.wp_lookup (fun j k t' found _ => by rw [missing] at found; cases found)
        fun _ => ⟨rfl, rfl⟩
    obtain ⟨r, t', ok, rfl, rfl⟩ := look.exists_ok
    exact ok
  · have look : wp (dirlookup sb i name) (fun _ => False) (fun r t' => ∃ j k, r = some (j, k) ∧
        (t'.itable j).inum = x ∧ ∃ t'', clearEntry sb i k t' = .ok ((), t'') ∧
          Cleared sb h i j k name t t'') t := by
      refine D'.wp_lookup (fun j k t' found' clear => ?_) fun missing => ?_
      · rw [found] at found'
        obtain ⟨_, t'', ok, C⟩ := clear.exists_ok
        exact ⟨j, k, rfl, (Option.some.inj found').symm, t'', ok, C⟩
      · rw [found] at missing
        cases missing
    obtain ⟨r, t', ok, j, k, rfl, inum, t'', cleared, C⟩ := look.exists_ok
    exact ⟨j, k, t', ok, inum, t'', cleared, C.entries, C.map⟩
  · obtain ⟨r, t', ok, -, ⟨rfl, map, why⟩ | ⟨rfl, map, missing, grows⟩⟩ :=
      (D'.wp_link proper.1 proper.2).exists_ok
    · exact ⟨-1, t', ok, .inr rfl, ⟨fun _ => why, fun _ => rfl⟩, map⟩
    · refine ⟨0, t', ok, .inl rfl, ⟨nofun, fun why => ?_⟩, map⟩
      rcases why with present | full
      · exact absurd missing present
      · exact absurd full grows

theorem lockedRoot_entries :
    entries smallFs lockedRoot (lockedRoot.itable 0).inum (lockedRoot.din 0) =
      put (put [] 0 (some (rootino, dot))) 1 (some (rootino, dotdot)) := by
  decide +kernel

theorem lockedRoot_dir : Dir smallFs (update (startRefs 1) 0 1) 0 lockedRoot := by
  have empty : Distinct ([] : List (Option (Nat × Name))) := nofun
  refine ⟨lockedRoot_low, by decide, rfl, by decide +kernel, by decide +kernel, ?_, 1, by decide⟩
  rw [lockedRoot_entries]
  exact distinct_insert (distinct_insert empty le_rfl rfl) le_rfl (by decide)

/-- On the root directory of the empty file system. -/
theorem directory_is_map_root : ∃ t,
    performAll smallFs 0 [.link [97] 3, .link [97] 2, .unlink dot] lockedRoot =
      .ok ([0, -1, 0], t) ∧
      (∃ j k t', dirlookup smallFs 0 [97] t = .ok (some (j, k), t') ∧ (t'.itable j).inum = 3) ∧
      dirlookup smallFs 0 dot t = .ok (none, t) := by
  obtain ⟨rs, t, ok, map, -, missing, found, -⟩ := directory_is_map lockedRoot_dir
    [.link [97] 3, .link [97] 2, .unlink dot]
    (forall_mem_cons.mpr ⟨by decide, forall_mem_cons.mpr ⟨by decide,
      forall_mem_cons.mpr ⟨trivial, nofun⟩⟩⟩)
  have results : (performAll smallFs 0 [.link [97] 3, .link [97] 2, .unlink dot]
      lockedRoot).toOption.map Prod.fst = some [0, -1, 0] := by
    decide +kernel
  rw [ok] at results
  obtain rfl : rs = [0, -1, 0] := Option.some.inj results
  rw [dirMap, dirMap, lockedRoot_entries] at map
  obtain ⟨j, k, t', look, inum, -⟩ := found [97] 3 (by rw [dirMap, map]; decide)
  exact ⟨t, ok, ⟨j, k, t', look, inum⟩, missing dot (by rw [dirMap, map]; decide)⟩

/-- Fifty inodes are in use, the root and 49 of the files in it, and the root is locked. -/
abbrev fullTable : State := lockedSmall 50 50 0

def stopOf {α : Type} : Except Stop α → Option Stop
  | .ok _ => none
  | .error e => some e

/-- With the inode table full the last name of the root is not found, nor refused as a duplicate. -/
theorem full_table_panics :
    Low smallFs (update (startRefs 50) 0 1) none fullTable ∧
      dirMap smallFs 0 fullTable (nameKey (fileName 51)) = some 51 ∧
      stopOf (dirlookup smallFs 0 (fileName 51) fullTable) = some .igetNoInodes ∧
      stopOf (dirlink smallFs 0 (fileName 51) 2 fullTable) = some .igetNoInodes :=
  ⟨lockedSmall_low (small_low (by decide) (by decide) (by decide +kernel)) (by decide)
    (by decide +kernel), by decide +kernel, by decide +kernel, by decide +kernel⟩

end Map

end Xv6.Fs
