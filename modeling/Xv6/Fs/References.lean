import Xv6.Fs.Syscalls
import Xv6.Lib.Wp

/-! What the functions of `kernel/fs.c` do to the reference counts of the inode table, whatever is
on the disk. -/

namespace Xv6.Fs.Refs

open Wp Function

variable {sb : Superblock} {s : State} {i : Slot} {α β : Type}

def refs (s : State) : Slot → Int := fun i => (s.itable i).ref

abbrev one (i : Slot) : Slot → Int := Pi.single i 1

/-- A panic other than those that check a reference count. -/
def Mild (e : Stop) : Prop := e ≠ .ilock ∧ e ≠ .filedup ∧ e ≠ .fileclose

/-- The program `m` leaves the counts alone. -/
def Keeps (m : M α) : Prop := ∀ s, wp m Mild (fun _ s' => refs s' = refs s) s

theorem refs_setInode (s : State) (i : Slot) (ip : Inode) :
    refs (s.setInode i ip) = update (refs s) i ip.ref :=
  comp_update (fun v : Inode => (v.ref : Int)) s.itable i ip

theorem refs_setInode_same (same : ip.ref = (s.itable i).ref) :
    refs (s.setInode i ip) = refs s := by
  rw [refs_setInode, same]
  exact update_eq_self ..

theorem refs_setDin (din : Dinode) : refs (s.setDin i din) = refs s := refs_setInode_same rfl

theorem update_add_one (r : Slot → Int) (i : Slot) (a : Int) (h : a = r i + 1) :
    update r i a = r + one i := by
  funext j
  by_cases hj : j = i
  · rw [hj, update_self, Pi.add_apply, one, Pi.single_eq_same, h]
  · rw [update_of_ne hj, Pi.add_apply, one, Pi.single_eq_of_ne hj, add_zero]

theorem update_sub_one (r : Slot → Int) (i : Slot) :
    update r i (r i - 1) = r - one i := by
  funext j
  by_cases hj : j = i
  · rw [hj, update_self, Pi.sub_apply, one, Pi.single_eq_same]
  · rw [update_of_ne hj, Pi.sub_apply, one, Pi.single_eq_of_ne hj, sub_zero]

namespace Keeps

variable {m : M α} {f : α → M β}

theorem pure (a : α) : Keeps (Pure.pure a : M α) := fun _ => rfl

theorem throw (mild : Mild e) : Keeps (MonadExcept.throw e : M α) := fun _ => mild

theorem bind (first : Keeps m) (next : ∀ a, Keeps (f a)) : Keeps (m >>= f) := fun s =>
  (first s).bind fun a s' same => (next a s').mono (fun _ _ eq => eq.trans same) fun _ => id

theorem get {f : State → M β} (next : ∀ s, wp (f s) Mild (fun _ s' => refs s' = refs s) s) :
    Keeps (MonadState.get >>= f) := fun s => .seq (next s)

theorem modify (same : ∀ s, refs (g s) = refs s) : Keeps (modify g : M PUnit) :=
  fun s => same s

theorem ite {c : Prop} [Decidable c] {m' : M α} (pos : Keeps m) (neg : Keeps m') :
    Keeps (if c then m else m') := by
  split
  · exact pos
  · exact neg

end Keeps

theorem keeps_setDin {din : State → Dinode} :
    Keeps (modify fun s => s.setDin i (din s) : M PUnit) := .modify fun _ => refs_setDin _

theorem keeps_balloc : Keeps (balloc sb) := by
  refine .get fun s => ?_
  split <;> rfl

theorem keeps_bfree (b : UInt32) : Keeps (bfree sb b) := by
  refine .get fun s => ?_
  split
  · rfl
  · exact ⟨nofun, nofun, nofun⟩

theorem keeps_iupdate (i : Slot) : Keeps (iupdate sb i) := Keeps.modify fun _ => rfl

theorem keeps_acquiresleep (i : Slot) : Keeps (acquiresleep i) := by
  refine .get fun s => ?_
  split
  · exact refs_setInode_same rfl
  · exact ⟨nofun, nofun, nofun⟩

theorem keeps_releasesleep (i : Slot) : Keeps (releasesleep i) :=
  .modify fun _ => refs_setInode_same rfl

theorem keeps_iunlock (i : Slot) : Keeps (iunlock i) := by
  refine .get fun s => ?_
  split
  · exact ⟨nofun, nofun, nofun⟩
  · exact keeps_releasesleep i s

theorem keeps_addrOf (i : Slot) (k : Fin (ndirect + 1)) : Keeps (addrOf sb i k) := by
  refine .get fun s => wp_ite (fun _ => ?_) fun _ => rfl
  refine Keeps.bind keeps_balloc (fun addr => ?_) s
  refine .ite (.pure _) ?_
  exact .bind keeps_setDin fun _ => .pure _

theorem keeps_bmap (i : Slot) (bn : Nat) : Keeps (bmap sb i bn) := by
  unfold bmap
  split
  · exact keeps_addrOf i _
  · refine .ite ?_ (.throw ⟨nofun, nofun, nofun⟩)
    refine .bind (keeps_addrOf i _) fun ind => .ite (.pure _) ?_
    refine .get fun s => wp_ite (fun _ => ?_) fun _ => rfl
    refine Keeps.bind keeps_balloc (fun addr => ?_) s
    refine .ite (.pure _) ?_
    exact .bind (.modify fun _ => rfl) fun _ => .pure _

theorem keeps_itruncDirect (i : Slot) (ks : List (Fin (ndirect + 1))) :
    Keeps (itruncDirect sb i ks) := by
  induction ks with
  | nil => exact .pure _
  | cons k ks ih =>
    refine Keeps.get fun s => wp_ite (fun _ => ?_) fun _ => ih s
    refine Keeps.bind (keeps_bfree _) (fun _ => ?_) s
    exact .bind keeps_setDin fun _ => ih

theorem keeps_itruncIndirect (as : List UInt32) : Keeps (itruncIndirect sb as) := by
  induction as with
  | nil => exact .pure _
  | cons a as ih => exact .ite (.bind (keeps_bfree _) fun _ => ih) ih

theorem keeps_itrunc (i : Slot) : Keeps (itrunc sb i) := by
  have last : Keeps (do
      modify fun s => s.setDin i { s.din i with size := 0 }
      iupdate sb i) :=
    .bind keeps_setDin fun _ => keeps_iupdate i
  refine .bind (keeps_itruncDirect i _) fun _ => .get fun s =>
    wp_ite (fun _ => ?_) fun _ => last s
  refine Keeps.bind (keeps_itruncIndirect _) (fun _ => ?_) s
  refine .bind (keeps_bfree _) fun _ => ?_
  exact .bind keeps_setDin fun _ => last

theorem keeps_readiLoop (i : Slot) (copyout : Nat → Nat → Bool) (fuel tot off n : Nat)
    (bytes : List UInt8) : Keeps (readiLoop sb i copyout fuel tot off n bytes) := by
  induction fuel generalizing tot off bytes with
  | zero => exact .pure _
  | succ fuel ih =>
    refine .ite ?_ (.pure _)
    refine .bind (keeps_bmap i _) fun addr => .ite (.pure _) ?_
    refine .get fun s => wp_ite (fun _ => ih _ _ _ s) fun _ => rfl

theorem keeps_readi (i : Slot) (copyout : Nat → Nat → Bool) (off n : UInt32) :
    Keeps (readi sb i copyout off n) :=
  Keeps.get fun s => wp_ite (fun _ => rfl) fun _ => keeps_readiLoop i _ _ _ _ _ _ s

theorem keeps_writeiLoop (i : Slot) (src : Nat → Option UInt8) (fuel tot off n : Nat) :
    Keeps (writeiLoop sb i src fuel tot off n) := by
  induction fuel generalizing tot off with
  | zero => exact .pure _
  | succ fuel ih =>
    refine .ite ?_ (.pure _)
    refine .bind (keeps_bmap i _) fun addr => .ite (.pure _) ?_
    refine .get fun s => ?_
    exact wp_ite (fun _ => ih _ _ (s.setDisk _)) fun _ => rfl

theorem keeps_writei (i : Slot) (src : Nat → Option UInt8) (off n : UInt32) :
    Keeps (writei sb i src off n) := by
  refine .get fun s => wp_ite (fun _ => rfl) fun _ => wp_ite (fun _ => rfl) fun _ => ?_
  refine Keeps.bind (keeps_writeiLoop i _ _ _ _ _) (fun r => ?_) s
  refine .bind (.modify fun s => ?_) fun _ => .bind (keeps_iupdate i) fun _ =>
    .pure _
  split
  · exact refs_setDin _
  · rfl

theorem keeps_dirlinkLoop (i : Slot) (last : Nat) (ks : List Nat) :
    Keeps (dirlinkLoop sb i last ks) := by
  induction ks with
  | nil => exact .pure _
  | cons k ks ih =>
    refine .bind (keeps_readi i _ _ _) fun r => ?_
    exact .ite (.throw ⟨nofun, nofun, nofun⟩) (.ite (.pure _) ih)

theorem keeps_execReads (i : Slot) (reads : List (UInt32 × UInt32)) :
    Keeps (execReads sb i reads) := by
  induction reads with
  | nil => exact .pure _
  | cons r reads ih => exact .bind (keeps_readi i _ _ _) fun _ => ih

/-! The functions that change a count, with what follows them. -/

section Counts

variable {Q : α → State → Prop} {r : Slot → Int} {type : Int16} {path : Path}

theorem Keeps.step {f : α → M β} {Q : β → State → Prop} (keeps : Keeps m) (at_ : refs s = r)
    (next : ∀ a s', refs s' = r → wp (f a) Mild Q s') : wp (m >>= f) Mild Q s :=
  (keeps s).bind fun a s' same => next a s' (same.trans at_)

theorem wp_ilock {Q : Unit → State → Prop} (held : 0 < refs s i)
    (post : ∀ s', refs s' = refs s → Q () s') : wp (ilock sb i) Mild Q s := by
  refine .seq ?_
  show wp (if (s.itable i).ref < 1 then throw .ilock else _) Mild Q s
  rw [if_neg (by show ¬refs s i < 1; omega)]
  refine (keeps_acquiresleep i s).bind fun _ s' same => ?_
  refine .seq (wp_ite (fun _ => post s' same) fun _ => ?_)
  have set : refs (s'.setInode i { s'.itable i with
      din := sb.inode s'.disk (s'.itable i).inum, valid := true }) = refs s := by
    rw [refs_setInode_same]
    · exact same
    · rfl
  exact .seq (wp_ite (fun _ => ⟨nofun, nofun, nofun⟩) fun _ => post _ set)

theorem wp_iget {Q : Slot → State → Prop}
    (post : ∀ i s', refs s' = refs s + one i → Q i s') : wp (iget inum) Mild Q s := by
  refine .get ?_
  cases found : Xv6.iget s.itable rootdev inum with
  | none => exact ⟨(by rintro ⟨⟩), (by rintro ⟨⟩), (by rintro ⟨⟩)⟩
  | some r =>
    obtain ⟨i, t⟩ := r
    refine post i (s.setItable t) ?_
    rcases iget_cases found with ⟨-, rfl⟩ | ⟨-, zero, rfl⟩
    · refine (refs_setInode s i _).trans (update_add_one _ _ _ ?_)
      rfl
    · refine (refs_setInode s i _).trans (update_add_one _ _ _ ?_)
      show (1 : Int) = (s.itable i).ref + 1
      rw [zero]
      rfl

theorem wp_idup {Q : Slot → State → Prop} (post : ∀ s', refs s' = refs s + one i → Q i s') :
    wp (idup i) Mild Q s :=
  post _ ((refs_setInode s i _).trans (update_add_one _ _ _ rfl))

theorem wp_iput {Q : Unit → State → Prop} (post : ∀ s', refs s' = refs s - one i → Q () s') :
    wp (iput sb i) Mild Q s := by
  have last : ∀ s', refs s' = refs s →
      wp (modify fun s => s.setInode i { s.itable i with ref := (s.itable i).ref - 1 }) Mild Q s' := by
    intro s' same
    refine post _ ?_
    rw [← same]
    exact (refs_setInode s' i _).trans (update_sub_one _ _)
  refine .seq (wp_ite (fun _ => ?_) fun _ => last s rfl)
  refine (keeps_acquiresleep i).step rfl fun _ s1 h1 => ?_
  refine (keeps_itrunc i).step h1 fun _ s2 h2 => ?_
  refine keeps_setDin.step h2 fun _ s3 h3 => ?_
  refine (keeps_iupdate i).step h3 fun _ s4 h4 => ?_
  refine Keeps.step (.modify fun _ => refs_setInode_same rfl) h4 fun _ s5 h5 => ?_
  exact (keeps_releasesleep i).step h5 fun _ s6 h6 => last s6 h6

theorem wp_iunlockput {Q : Unit → State → Prop}
    (post : ∀ s', refs s' = refs s - one i → Q () s') : wp (iunlockput sb i) Mild Q s :=
  (keeps_iunlock i).step rfl fun _ _ same => wp_iput fun _ eq => post _ (eq.trans (by rw [same]))

theorem iunlockput_step {f : Unit → M β} {Q : β → State → Prop} (at_ : refs s = r + one i)
    (next : ∀ s', refs s' = r → wp (f ()) Mild Q s') : wp (iunlockput sb i >>= f) Mild Q s :=
  .seq (wp_iunlockput fun s' h => next s' (by rw [h, at_, add_sub_cancel_right]))

theorem ilock_step {f : Unit → M β} {Q : β → State → Prop} (at_ : refs s = r + one i)
    (nonneg : ∀ i, 0 ≤ r i) (next : ∀ s', refs s' = r + one i → wp (f ()) Mild Q s') :
    wp (ilock sb i >>= f) Mild Q s := by
  have held : 0 < refs s i := by
    have := nonneg i
    rw [at_, Pi.add_apply, one, Pi.single_eq_same]
    omega
  exact .seq (wp_ilock held fun s' h => next s' (h.trans at_))

theorem wp_ialloc {Q : Option Slot → State → Prop}
    (post : ∀ o s', refs s' = refs s + (o.elim 0 one) → Q o s') : wp (ialloc sb type) Mild Q s := by
  refine .get ?_
  split
  · refine .seq (.seq (wp_iget fun i s' eq => ?_))
    exact post (some i) s' eq
  · exact post none s (add_zero _).symm

theorem wp_dirlookup {Q : Option (Slot × Nat) → State → Prop}
    (post : ∀ o s', refs s' = refs s + (o.elim 0 fun r => one r.1) → Q o s') :
    wp (dirlookup sb i name) Mild Q s := by
  have loop : ∀ ks s', refs s' = refs s → wp (dirlookupLoop sb i name ks) Mild Q s' := by
    intro ks
    induction ks with
    | nil =>
      intro s' same
      exact post none s' (same.trans (add_zero _).symm)
    | cons k ks ih =>
      intro s' same
      refine (keeps_readi i _ _ _).step same fun r s1 h1 => ?_
      refine wp_ite (fun _ => ⟨nofun, nofun, nofun⟩) fun _ => wp_ite (fun _ => ih s1 h1) fun _ => ?_
      refine wp_ite (fun _ => ?_) fun _ => ih s1 h1
      refine .seq (wp_iget fun ip s2 eq => ?_)
      exact post (some (ip, k)) s2 (eq.trans (by rw [h1]; rfl))
  refine .seq (wp_ite (fun _ => ⟨nofun, nofun, nofun⟩) fun _ => loop _ s rfl)

theorem keeps_dirlink (i : Slot) (name : Name) (inum : Nat) : Keeps (dirlink sb i name inum) := by
  intro s
  refine .seq (wp_dirlookup fun o s1 h1 => ?_)
  match o with
  | some (ip, k) =>
    refine .seq (wp_iput fun s2 h2 => ?_)
    show refs s2 = refs s
    rw [h2, h1]
    exact add_sub_cancel_right _ _
  | none =>
    have same : refs s1 = refs s := h1.trans (add_zero _)
    refine .seq ?_
    refine (keeps_dirlinkLoop i _ _).step same fun k s2 h2 => ?_
    exact (keeps_writei i _ _ _).step h2 fun r s3 h3 => h3

/-- The walk of a path holds one reference, to the inode that it has got to. -/
theorem wp_namexLoop (names : List Name) :
    ∀ {s : State} {i : Slot} {name : Name} {Q : Option (Slot × Name) → State → Prop},
    refs s = r + one i → (∀ i, 0 ≤ r i) →
    (∀ o s', refs s' = r + (o.elim 0 fun x => one x.1) → Q o s') →
    wp (namexLoop sb parent names i name) Mild Q s := by
  induction names with
  | nil =>
    intro s i name Q at_ _ post
    refine wp_ite (fun _ => ?_) fun _ => post (some (i, name)) s at_
    refine .seq (wp_iput fun s1 h1 => post none s1 ?_)
    rw [h1, at_, add_sub_cancel_right]
    exact (add_zero r).symm
  | cons name names ih =>
    intro s i last Q at_ nonneg post
    refine ilock_step at_ nonneg fun s1 h1 => ?_
    refine .seq (wp_ite (fun _ => ?_) fun _ => wp_ite (fun _ => ?_) fun _ => ?_)
    · exact iunlockput_step h1 fun s2 h2 => post none s2 (h2.trans (add_zero r).symm)
    · exact (keeps_iunlock i).step h1 fun _ s2 h2 => post (some (i, name)) s2 h2
    · refine .seq (wp_dirlookup fun o s2 h2 => ?_)
      rw [h1, add_right_comm] at h2
      match o with
      | none => exact iunlockput_step h2 fun s3 h3 => post none s3 h3
      | some (next, k) => exact iunlockput_step h2 fun s3 h3 => ih h3 nonneg post

theorem keeps_cwd : Keeps cwd := fun _ => rfl

theorem wp_namex {Q : Option (Slot × Name) → State → Prop} (nonneg : ∀ i, 0 ≤ refs s i)
    (post : ∀ o s', refs s' = refs s + (o.elim 0 fun x => one x.1) → Q o s') :
    wp (namex sb path parent) Mild Q s := by
  have walk : ∀ i s', refs s' = refs s + one i →
      wp (namexLoop sb parent (elements path.bytes.length path.bytes) i []) Mild Q s' :=
    fun i s' h => wp_namexLoop _ h nonneg post
  refine wp_ite (fun _ => .seq (wp_iget walk)) fun _ => ?_
  refine keeps_cwd.step rfl fun c s1 h1 => .seq (wp_idup fun s2 h2 => walk c s2 ?_)
  rw [h2, h1]

theorem wp_namei {Q : Option Slot → State → Prop} (nonneg : ∀ i, 0 ≤ refs s i)
    (post : ∀ o s', refs s' = refs s + (o.elim 0 one) → Q o s') : wp (namei sb path) Mild Q s := by
  refine .seq (wp_namex nonneg fun o s' h => post _ s' ?_)
  rw [h]
  cases o <;> rfl

theorem keeps_addLink (i : Slot) (by_ : Int16) : Keeps (addLink sb i by_) :=
  .bind keeps_setDin fun _ => keeps_iupdate i

theorem keeps_createDots (ip dp : Slot) : Keeps (createDots sb ip dp) := by
  refine .get fun s => ?_
  refine Keeps.bind (keeps_dirlink _ _ _) (fun r => ?_) s
  refine .ite (.pure _) (.get fun s => ?_)
  exact Keeps.bind (keeps_dirlink _ _ _) (fun r => Keeps.pure _) s

theorem wp_createFail {Q : Option Slot → State → Prop} (at_ : refs s = r + one dp + one ip)
    (post : ∀ s', refs s' = r → Q none s') : wp (createFail sb ip dp) Mild Q s := by
  refine keeps_setDin.step at_ fun _ s1 h1 => ?_
  refine (keeps_iupdate ip).step h1 fun _ s2 h2 => ?_
  exact iunlockput_step h2 fun s3 h3 => iunlockput_step h3 fun s4 h4 => post s4 h4

theorem wp_createNew {Q : Option Slot → State → Prop} (at_ : refs s = r + one dp)
    (nonneg : ∀ i, 0 ≤ r i) (post : ∀ o s', refs s' = r + (o.elim 0 one) → Q o s') :
    wp (createNew sb dp name type major minor) Mild Q s := by
  refine .seq (wp_ialloc fun o s1 h1 => ?_)
  rw [at_] at h1
  match o with
  | none =>
    rw [add_right_comm] at h1
    exact iunlockput_step h1 fun s2 h2 => post none s2 h2
  | some ip =>
    have fail : ∀ s2, refs s2 = r + one dp + one ip → wp (createFail sb ip dp) Mild Q s2 :=
      fun s2 h2 => wp_createFail h2 fun s3 h3 => post none s3 (h3.trans (add_zero r).symm)
    have nonneg' : 0 ≤ r + one dp := add_nonneg nonneg (Pi.single_nonneg.mpr zero_le_one)
    refine ilock_step h1 nonneg' fun s2 h2 => ?_
    refine keeps_setDin.step h2 fun _ s3 h3 => ?_
    refine (keeps_iupdate ip).step h3 fun _ s4 h4 => ?_
    have done : ∀ s7, refs s7 = r + one dp + one ip →
        wp (iunlockput sb dp >>= fun _ => pure (some ip)) Mild Q s7 := by
      intro s7 h7
      rw [add_right_comm] at h7
      exact iunlockput_step h7 fun s8 h8 => post (some ip) s8 h8
    have tail : ∀ (dots : Bool) s5, refs s5 = r + one dp + one ip →
        wp (do
          if !dots then createFail sb ip dp
          else
            let r ← dirlink sb dp name ((← get).itable ip).inum
            if r < 0 then createFail sb ip dp
            else
              if type = tDir then addLink sb dp 1
              iunlockput sb dp
              return some ip) Mild Q s5 := by
      intro dots s5 h5
      refine wp_ite (fun _ => fail s5 h5) fun _ => .seq ?_
      refine (keeps_dirlink _ _ _).step h5 fun res s6 h6 => wp_ite (fun _ => fail s6 h6) fun _ => ?_
      refine wp_ite (fun _ => ?_) fun _ => done s6 h6
      exact (keeps_addLink dp 1).step h6 fun _ s7 h7 => done s7 h7
    refine wp_ite (fun _ => ?_) fun _ => tail true s4 h4
    exact (keeps_createDots ip dp).step h4 fun dots s5 h5 => tail dots s5 h5

theorem wp_create {Q : Option Slot → State → Prop} (nonneg : ∀ i, 0 ≤ refs s i)
    (post : ∀ o s', refs s' = refs s + (o.elim 0 one) → Q o s') :
    wp (create sb path type major minor) Mild Q s := by
  refine .seq (wp_namex nonneg fun o s1 h1 => ?_)
  match o with
  | none => exact post none s1 h1
  | some (dp, name) =>
    refine ilock_step h1 nonneg fun s2 h2 => ?_
    refine .seq (wp_dirlookup fun found s3 h3 => ?_)
    rw [h2] at h3
    match found with
    | none => exact wp_createNew (h3.trans (add_zero _)) nonneg post
    | some (ip, k) =>
      rw [add_right_comm] at h3
      refine iunlockput_step h3 fun s4 h4 => ilock_step h4 nonneg fun s5 h5 => .seq ?_
      refine wp_ite (fun _ => post (some ip) s5 h5) fun _ => ?_
      exact iunlockput_step h5 fun s6 h6 => post none s6 (h6.trans (add_zero _).symm)

theorem wp_exec {path : Option Path} {Q : Int → State → Prop} (nonneg : ∀ i, 0 ≤ refs s i)
    (post : ∀ r s', refs s' = refs s → Q r s') : wp (exec sb path reads) Mild Q s := by
  cases path with
  | none => exact post (-1) s rfl
  | some path =>
    refine .seq (wp_namei nonneg fun o s1 h1 => ?_)
    match o with
    | none => exact post (-1) s1 (h1.trans (add_zero _))
    | some ip =>
      refine ilock_step h1 nonneg fun s2 h2 => ?_
      refine (keeps_execReads ip reads).step h2 fun _ s3 h3 => ?_
      exact iunlockput_step h3 fun s4 h4 => post 0 s4 h4

end Counts

end Xv6.Fs.Refs
