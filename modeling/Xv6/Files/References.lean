import Xv6.Files.System
import Xv6.Fs.Boot
import Xv6.Fs.References
import Xv6.Lib.Tally

/-! Reference counts are exact. Within a call they differ from the numbers of pointers by what the
call has in hand; each function says by how much it changes that. -/

namespace Xv6.Files

open Wp Tally Function
open Fs (Path tDevice)
open Fs.Refs (Mild refs one)

variable {sb : Superblock} {s s' : State} {f : Fin nfile} {fd : Fin nofile} {p : Fin nproc}
  {e : Fin nfile → Int} {h x : Slot → Int} {g : Bool → Nat → Int} {α β : Type}

/-- A stop that is no fault in the counting. -/
def Sound : Stop → Prop
  | .fs why => Mild why
  | .freed | .null => False

def File.inode (v : File) : Option Slot :=
  if v.type = .inode ∨ v.type = .device then some v.ip else none

/-- The pipe that a file is the read end of, or the write end. -/
def File.endOf (write : Bool) (v : File) : Option Nat :=
  if v.type = .pipe ∧ v.writable = write then some v.pipe else none

def Ends.isOpen (write : Bool) (v : Ends) : Bool := if write then v.writeopen else v.readopen

/-- The number of open read ends, or write ends, of a page. -/
def Page.opens (write : Bool) (v : Page) : Int := if v.ends.any (Ends.isOpen write) then 1 else 0

def State.fileRefs (s : State) (f : Fin nfile) : Int := (s.file f).ref

def State.inodeRefs (s : State) (i : Slot) : Int := (s.itable i).ref

/-- The counts exceed the numbers of pointers by `e` for files and `h` for inodes, and the open ends
of pipes the files for them by `g`. A page was freed once for every time that it was allocated,
except the last if it is still a pipe. -/
structure Counted (e : Fin nfile → Int) (h : Slot → Int) (g : Bool → Nat → Int) (s : State) :
    Prop where
  files : s.fileRefs = tally s.ofile + e
  inodes : s.inodeRefs = tally (File.inode ∘ s.file) + tally s.cwd + h
  typed : ∀ f, (s.file f).ref = 0 → (s.file f).type = .none
  ends : ∀ w, (fun pi => (s.pipe pi).opens w) = tally (File.endOf w ∘ s.file) + g w
  open_ : ∀ pi ends, (s.pipe pi).ends = some ends → ends.readopen = true ∨ ends.writeopen = true
  once : ∀ pi, (s.pipe pi).allocs = (s.pipe pi).frees + if (s.pipe pi).ends.isSome then 1 else 0

/-- The part of the state that the functions on files leave alone. -/
structure Kept (s s' : State) : Prop where
  ofile : s'.ofile = s.ofile
  cwd : s'.cwd = s.cwd
  life : s'.life = s.life
  cur : s'.cur = s.cur

theorem Kept.refl (s : State) : Kept s s := ⟨rfl, rfl, rfl, rfl⟩

theorem Kept.live (k : Kept s s') (live : s.life s.cur = .live) : s'.life s'.cur = .live := by
  rw [k.life, k.cur, live]

theorem Kept.trans (k : Kept s s') (k' : Kept s' s'') : Kept s s'' :=
  ⟨k'.ofile.trans k.ofile, k'.cwd.trans k.cwd, k'.life.trans k.life, k'.cur.trans k.cur⟩

section Parts

variable {i : Slot}

section

variable (C : Counted e h g s)

include C

theorem Counted.congr (he : e' = e) (hh : h' = h) : Counted e' h' g s := by
  rwa [he, hh]

theorem Counted.one_le (he : 1 ≤ e f) : 1 ≤ (s.file f).ref := by
  have count := congrFun C.files f
  have := tally_nonneg s.ofile f
  rw [Pi.add_apply] at count
  show 1 ≤ s.fileRefs f
  omega

theorem Counted.one_le_of_ofile (at_ : s.ofile a = some f) (he : 0 ≤ e f) : 1 ≤ (s.file f).ref := by
  have count := congrFun C.files f
  have := tally_pos at_
  rw [Pi.add_apply] at count
  show 1 ≤ s.fileRefs f
  omega

theorem Counted.le_refs (i : Slot) : h i ≤ refs s.toFs i := by
  have count := congrFun C.inodes i
  have := tally_nonneg (File.inode ∘ s.file) i
  have := tally_nonneg s.cwd i
  rw [Pi.add_apply, Pi.add_apply] at count
  show h i ≤ s.inodeRefs i
  omega

theorem Counted.nonneg (hh : ∀ i, 0 ≤ h i) (i : Slot) : 0 ≤ refs s.toFs i :=
  (hh i).trans (C.le_refs i)

theorem Counted.withFs (eq : refs t = refs s.toFs + x) : Counted e (h + x) g (s.withFs t) := by
  refine ⟨C.files, ?_, C.typed, C.ends, C.open_, C.once⟩
  show refs t = tally (File.inode ∘ s.file) + tally s.cwd + (h + x)
  have count : refs s.toFs = tally (File.inode ∘ s.file) + tally s.cwd + h := C.inodes
  rw [eq, count, add_assoc]

end

theorem kept_withFs (s : State) (t : Fs.State) : Kept s (s.withFs t) := ⟨rfl, rfl, rfl, rfl⟩

theorem wp_onFs {m : Fs.M α}
    (sub : wp m Mild (fun a t => Q a (s.withFs t)) s.toFs) : wp (onFs m) Sound Q s := by
  unfold wp onFs at *
  split at sub
  next a t eq =>
    rwa [eq]
  next why eq =>
    rwa [eq]

section

variable (C : Counted e h g s)

include C

theorem Counted.keeps (keeps : Fs.Refs.Keeps m) {Q : α → State → Prop}
    (post : ∀ a s', Counted e h g s' → Kept s s' → Q a s') : wp (onFs m) Sound Q s := by
  refine wp_onFs ((keeps s.toFs).mono (fun a t same => ?_) fun _ => id)
  refine post a _ ?_ (kept_withFs s t)
  refine (C.withFs (x := 0) (same.trans (add_zero _).symm)).congr rfl (add_zero h).symm

theorem Counted.iput (post : ∀ s', Counted e (h - one i) g s' → Kept s s' → Q () s') :
    wp (onFs (Fs.iput sb i)) Sound Q s := by
  refine wp_onFs (Fs.Refs.wp_iput fun t eq => post _ ?_ (kept_withFs s t))
  rw [sub_eq_add_neg]
  exact C.withFs (eq.trans (sub_eq_add_neg _ _))

theorem Counted.iunlockput (post : ∀ s', Counted e (h - one i) g s' → Kept s s' → Q () s') :
    wp (onFs (Fs.iunlockput sb i)) Sound Q s := by
  refine wp_onFs (Fs.Refs.wp_iunlockput fun t eq => post _ ?_ (kept_withFs s t))
  rw [sub_eq_add_neg]
  exact C.withFs (eq.trans (sub_eq_add_neg _ _))

theorem Counted.ilock (hi : 1 ≤ h i) (post : ∀ s', Counted e h g s' → Kept s s' → Q () s') :
    wp (onFs (Fs.ilock sb i)) Sound Q s := by
  refine wp_onFs (Fs.Refs.wp_ilock (hi.trans (C.le_refs i)) fun t same => post _ ?_ (kept_withFs s t))
  refine (C.withFs (x := 0) (same.trans (add_zero _).symm)).congr rfl (add_zero h).symm

theorem Counted.setFile (v : File) (typed : v.ref = 0 → v.type = .none) :
    Counted (e + Pi.single f (v.ref - (s.file f).ref))
      (h + pointer (s.file f).inode - pointer v.inode)
      (fun w => g w + pointer ((s.file f).endOf w) - pointer (v.endOf w)) (s.setFile f v) := by
  have same : ∀ {κ : Type} [DecidableEq κ] (φ : File → Option κ),
      φ ∘ (s.setFile f v).file = update (φ ∘ s.file) f (φ v) := fun φ =>
    comp_update φ s.file f v
  refine ⟨?_, ?_, ?_, fun w => ?_, C.open_, C.once⟩
  · have refs : (s.setFile f v).fileRefs = update s.fileRefs f v.ref :=
      comp_update (fun v : File => v.ref) s.file f v
    rw [refs]
    show _ = tally s.ofile + _
    rw [← add_assoc, ← C.files]
    funext f'
    by_cases hf' : f' = f
    · rw [hf', update_self, Pi.add_apply, Pi.single_eq_same]
      show v.ref = (s.file f).ref + (v.ref - (s.file f).ref)
      omega
    · rw [update_of_ne hf', Pi.add_apply, Pi.single_eq_of_ne hf', add_zero]
  · show s.inodeRefs = tally _ + tally s.cwd + _
    rw [same, tally_update, C.inodes]
    show _ = tally (File.inode ∘ s.file) + pointer v.inode - pointer (s.file f).inode + _ + _
    abel
  · exact (forall_update_iff s.file fun _ v => v.ref = 0 → v.type = .none).mpr
      ⟨typed, fun f' _ => C.typed f'⟩
  · show (fun pi => (s.pipe pi).opens w) = _
    rw [same, tally_update, C.ends]
    show _ = tally (File.endOf w ∘ s.file) + pointer (v.endOf w) - pointer ((s.file f).endOf w) + _
    abel

theorem Counted.setRef (n : Int) (pos : n ≠ 0) :
    Counted (e + Pi.single f (n - (s.file f).ref)) h g
      (s.setFile f { s.file f with ref := n }) := by
  have changed := C.setFile (f := f) { s.file f with ref := n } fun zero => absurd zero pos
  have inode : h + pointer (s.file f).inode - pointer (s.file f).inode = h :=
    add_sub_cancel_right _ _
  have ends : (fun w => g w + pointer ((s.file f).endOf w) - pointer ((s.file f).endOf w)) = g :=
    funext fun w => add_sub_cancel_right _ _
  replace changed : Counted _ (h + pointer (s.file f).inode - pointer (s.file f).inode)
    (fun w => g w + pointer ((s.file f).endOf w) - pointer ((s.file f).endOf w)) _ := changed
  rwa [inode, ends] at changed

theorem Counted.setPipe (pi : Nat) (v : Page)
    (open_ : ∀ ends, v.ends = some ends → ends.readopen = true ∨ ends.writeopen = true)
    (once : v.allocs = v.frees + if v.ends.isSome then 1 else 0) :
    Counted e h (fun w => g w + Pi.single pi (v.opens w - (s.pipe pi).opens w)) (s.setPipe pi v) := by
  refine ⟨C.files, C.inodes, C.typed, fun w => ?_, ?_, ?_⟩
  · show (fun pi' => (update s.pipe pi v pi').opens w) =
      tally (File.endOf w ∘ s.file) + (g w + Pi.single pi (v.opens w - (s.pipe pi).opens w))
    rw [← add_assoc, ← C.ends w]
    funext pi'
    by_cases same : pi' = pi
    · rw [same, update_self, Pi.add_apply, Pi.single_eq_same]
      omega
    · rw [update_of_ne same, Pi.add_apply, Pi.single_eq_of_ne same, add_zero]
  · exact (forall_update_iff s.pipe fun _ v => ∀ ends, v.ends = some ends →
      ends.readopen = true ∨ ends.writeopen = true).mpr ⟨open_, fun pi' _ => C.open_ pi'⟩
  · exact (forall_update_iff s.pipe fun _ v => v.allocs = v.frees +
      if v.ends.isSome then 1 else 0).mpr ⟨once, fun pi' _ => C.once pi'⟩

theorem Counted.setOfile (p : Fin nproc) (fd : Fin nofile) (v : Option (Fin nfile)) :
    Counted (e + pointer (s.ofile (p, fd)) - pointer v) h g (s.setOfile p fd v) := by
  refine ⟨?_, C.inodes, C.typed, C.ends, C.open_, C.once⟩
  show s.fileRefs = tally (update s.ofile (p, fd) v) + _
  rw [tally_update, C.files]
  abel

theorem Counted.setCwd (c : Option Slot) :
    Counted e (h + pointer (s.cwd p) - pointer c) g (s.setCwd p c) := by
  refine ⟨C.files, ?_, C.typed, C.ends, C.open_, C.once⟩
  show s.inodeRefs = tally (File.inode ∘ s.file) + tally (update s.cwd p c) + _
  rw [tally_update, C.inodes]
  abel

theorem Counted.setLife (v : Life) : Counted e h g (s.setLife p v) :=
  ⟨C.files, C.inodes, C.typed, C.ends, C.open_, C.once⟩

end

end Parts

section Functions

theorem wp_pipeclose
    (C : Counted e h (fun w => pointer (if writable = w then some pi else none)) s)
    (post : ∀ s', Counted e h 0 s' → Kept s s' → Q () s') :
    wp (pipeclose pi writable) Sound Q s := by
  have isOpen : (s.pipe pi).ends.any (Ends.isOpen writable) = true := by
    have count := congrFun (C.ends writable) pi
    have := tally_nonneg (File.endOf writable ∘ s.file) pi
    rw [Pi.add_apply, if_pos rfl, pointer_some, Pi.single_eq_same] at count
    by_contra closed
    rw [Page.opens, if_neg closed] at count
    omega
  obtain ⟨ends, found, openEnd⟩ := (Option.any_eq_true _ _).mp isOpen
  -- the page `v` takes its place, with the end closed and the other end as it was
  have close : ∀ v : Page, v.opens writable = 0 → v.opens (!writable) = (s.pipe pi).opens (!writable) →
      (∀ ends, v.ends = some ends → ends.readopen = true ∨ ends.writeopen = true) →
      (v.allocs = v.frees + if v.ends.isSome then 1 else 0) → Q () (s.setPipe pi v) := by
    intro v closed other open_ once
    have changed := C.setPipe pi v open_ once
    have zero : (fun w => pointer (if writable = w then some pi else none) +
        Pi.single pi (v.opens w - (s.pipe pi).opens w)) = 0 := by
      funext w
      by_cases same : writable = w
      · rw [if_pos same, ← same, closed, Page.opens, if_pos isOpen, pointer_some, ← Pi.single_add]
        exact Pi.single_zero pi
      · have flip : w = !writable := by
          cases w <;> cases writable <;> first | rfl | exact absurd rfl same
        rw [if_neg same, flip, other, sub_self, Pi.single_zero]
        rfl
    rw [zero] at changed
    exact post _ changed ⟨rfl, rfl, rfl, rfl⟩
  have once := C.once pi
  rw [found] at once
  refine .get ?_
  rw [found]
  have oldOther : (s.pipe pi).opens (!writable) =
      if ends.isOpen (!writable) then 1 else 0 := by
    rw [Page.opens, found]
    rfl
  refine wp_ite (fun both => ?_) fun some => ?_
  · refine close _ rfl ?_ (by intros; contradiction) ?_
    · rw [oldOther]
      cases writable with
      | true =>
        rw [show ends.isOpen (!true) = false from both.1]
        rfl
      | false =>
        rw [show ends.isOpen (!false) = false from both.2]
        rfl
    · exact once
  · refine close _ ?_ ?_ ?_ once
    · cases writable <;> rfl
    · rw [oldOther]
      cases writable <;> rfl
    · intro ends' eq
      cases eq
      by_contra none
      rw [not_or, Bool.not_eq_true, Bool.not_eq_true] at none
      exact some none

theorem wp_fileclose (C : Counted e h 0 s) (pos : 1 ≤ (s.file f).ref)
    (post : ∀ s', Counted (e - Pi.single f 1) h 0 s' → Kept s s' → Q () s') :
    wp (fileclose sb f) Sound Q s := by
  refine .seq ?_
  show wp (if (s.file f).ref < 1 then throw (.fs .fileclose) else _) Sound Q s
  rw [if_neg (by omega)]
  refine wp_ite (fun more => ?_) fun last => ?_
  · refine post _ ((C.setRef ((s.file f).ref - 1) (by omega)).congr ?_ rfl) ⟨rfl, rfl, rfl, rfl⟩
    rw [show (s.file f).ref - 1 - (s.file f).ref = -1 by omega, Pi.single_neg, sub_eq_add_neg]
  · have ref : (s.file f).ref = 1 := by omega
    have closed := C.setFile (f := f) { s.file f with ref := 0, type := .none } fun _ => rfl
    replace closed : Counted (e + Pi.single f (0 - (s.file f).ref))
        (h + pointer (s.file f).inode - pointer none)
        (fun w => 0 + pointer ((s.file f).endOf w) - pointer none) _ := closed
    simp only [pointer_none, sub_zero, zero_add] at closed
    rw [ref, show (0 : Int) - 1 = -1 from rfl, Pi.single_neg, ← sub_eq_add_neg] at closed
    have kept : Kept s (s.setFile f { s.file f with ref := 0, type := .none }) :=
      ⟨rfl, rfl, rfl, rfl⟩
    have noEnds : (s.file f).type ≠ .pipe → (fun w => pointer ((s.file f).endOf w)) = 0 :=
      fun notPipe => funext fun w => congrArg pointer (if_neg fun both => notPipe both.1)
    refine .seq (wp_ite (fun pipe => ?_) fun notPipe => wp_ite (fun inode => ?_) fun none => ?_)
    · have inode : (s.file f).inode = none := if_neg (by rw [pipe]; nofun)
      have ends : (fun w => pointer ((s.file f).endOf w)) =
          fun w => pointer (if (s.file f).writable = w then some (s.file f).pipe else none) := by
        funext w
        unfold File.endOf
        simp only [pipe, true_and]
      rw [inode, pointer_none, add_zero, ends] at closed
      exact wp_pipeclose closed fun s' C' k => post s' C' (kept.trans k)
    · have inode : (s.file f).inode = some (s.file f).ip := if_pos inode
      rw [inode, pointer_some, noEnds notPipe] at closed
      refine closed.iput fun s' C' k => post s' (C'.congr rfl ?_) (kept.trans k)
      exact (add_sub_cancel_right _ _).symm
    · have inode : (s.file f).inode = Option.none := if_neg none
      rw [inode, pointer_none, add_zero, noEnds notPipe] at closed
      exact post _ closed kept

theorem wp_filedup (C : Counted e h g s) (pos : 1 ≤ (s.file f).ref)
    (post : ∀ s', Counted (e + Pi.single f 1) h g s' → Kept s s' → Q () s') :
    wp (filedup f) Sound Q s := by
  refine .seq ?_
  show wp (if (s.file f).ref < 1 then throw (.fs .filedup) else _) Sound Q s
  rw [if_neg (by omega)]
  refine post _ ((C.setRef ((s.file f).ref + 1) (by omega)).congr ?_ rfl) ⟨rfl, rfl, rfl, rfl⟩
  rw [add_sub_cancel_left]

theorem wp_filealloc (full : Q none s)
    (found : ∀ f, (s.file f).ref = 0 → Q (some f) (s.setFile f { s.file f with ref := 1 })) :
    wp filealloc Sound Q s := by
  refine .get ?_
  split
  next f hf => exact found f (by simpa using List.find?_some hf)
  next => exact full

theorem Counted.filealloc (C : Counted e h g s) (free : (s.file f).ref = 0) :
    Counted (e + Pi.single f 1) h g (s.setFile f { s.file f with ref := 1 }) := by
  have changed := C.setRef (f := f) 1 one_ne_zero
  rwa [free] at changed

theorem Counted.setType (C : Counted e h g s) (untyped : (s.file f).type = .none) (v : File)
    (same : v.ref = (s.file f).ref) (used : v.ref ≠ 0) :
    Counted e (h - pointer v.inode) (fun w => g w - pointer (v.endOf w)) (s.setFile f v) := by
  have changed := C.setFile (f := f) v fun zero => absurd zero used
  have inode : (s.file f).inode = none := if_neg (by rw [untyped]; nofun)
  have ends : ∀ w, (s.file f).endOf w = none := fun w => if_neg (by rw [untyped]; nofun)
  simp only [inode, ends, pointer_none, add_zero, same, sub_self, Pi.single_zero] at changed
  exact changed

theorem Counted.openPipe (C : Counted e h 0 s) (pi : Nat) (fresh : (s.pipe pi).ends = none) :
    Counted e h (fun _ => Pi.single pi 1) (s.setPipe pi
      { s.pipe pi with ends := some ⟨true, true⟩, allocs := (s.pipe pi).allocs + 1 }) := by
  have once := C.once pi
  rw [fresh] at once
  have changed := C.setPipe pi
    { s.pipe pi with ends := some ⟨true, true⟩, allocs := (s.pipe pi).allocs + 1 }
    (fun ends eq => .inl (by cases eq; rfl)) (by rw [once]; rfl)
  have closed : ∀ w, (s.pipe pi).opens w = 0 := by
    intro w
    rw [Page.opens, fresh]
    rfl
  refine cast (congrArg (fun g => Counted e h g _) ?_) changed
  funext w
  rw [closed]
  cases w <;> exact zero_add _

theorem Counted.setEnds (C : Counted e h (fun _ => Pi.single pi 1) s) (ne : f0 ≠ f1)
    (none0 : (s.file f0).type = .none) (none1 : (s.file f1).type = .none)
    (used0 : (s.file f0).ref ≠ 0) (used1 : (s.file f1).ref ≠ 0)
    (eq0 : v0 = { s.file f0 with type := .pipe, readable := true, writable := false, pipe := pi })
    (eq1 : v1 = { s.file f1 with type := .pipe, readable := false, writable := true, pipe := pi }) :
    Counted e h 0 ((s.setFile f0 v0).setFile f1 v1) := by
  have other : (s.setFile f0 v0).file f1 = s.file f1 := update_of_ne ne.symm ..
  have C0 := C.setType none0 v0 (by rw [eq0]) (by rwa [eq0])
  have C1 := C0.setType (by rwa [other]) v1 (by rw [other, eq1])
    (by rwa [eq1])
  subst eq0 eq1
  refine cast (congrArg₂ (fun h g => Counted e h g _) ?_ ?_) C1
  · exact (sub_zero _).trans (sub_zero _)
  · funext w
    cases w with
    | true =>
      show (Pi.single pi 1 : Nat → Int) - 0 - Pi.single pi 1 = 0
      rw [sub_zero, sub_self]
    | false =>
      show (Pi.single pi 1 : Nat → Int) - Pi.single pi 1 - 0 = 0
      rw [sub_zero, sub_self]

theorem wp_closeBoth {Q : α → State → Prop} (C : Counted (Pi.single f0 1 + Pi.single f1 1) h 0 s)
    (post : ∀ s', Counted 0 h 0 s' → Kept s s' → Q a s') : wp (do
      fileclose sb f0
      fileclose sb f1
      return a) Sound Q s := by
  have nonneg : 0 ≤ (Pi.single f1 1 : Fin nfile → Int) := Pi.single_nonneg.mpr zero_le_one
  refine .seq (wp_fileclose C (C.one_le ?_) fun s1 C1 k1 => ?_)
  · rw [Pi.add_apply, Pi.single_eq_same]
    exact le_add_of_nonneg_right (nonneg f0)
  rw [add_sub_cancel_left] at C1
  refine .seq (wp_fileclose C1 (C1.one_le (by rw [Pi.single_eq_same])) fun s2 C2 k2 => ?_)
  rw [sub_self] at C2
  exact post s2 C2 (k1.trans k2)

theorem wp_pipealloc
    (C : Counted 0 h 0 s) (fresh : page.all fun pi => (s.pipe pi).ends.isNone)
    (failed : ∀ s', Counted 0 h 0 s' → Kept s s' → Q none s')
    (made : ∀ f0 f1 s', Counted (Pi.single f0 1 + Pi.single f1 1) h 0 s' → Kept s s' →
      Q (some (f0, f1)) s') : wp (pipealloc sb page) Sound Q s := by
  refine .seq (wp_filealloc (failed s C (Kept.refl s)) fun f0 free0 => ?_)
  have C1 := C.filealloc free0
  rw [zero_add] at C1
  have at0 : (s.setFile f0 { s.file f0 with ref := 1 }).file f0 = { s.file f0 with ref := 1 } :=
    update_self ..
  have k1 : Kept s (s.setFile f0 { s.file f0 with ref := 1 }) := ⟨rfl, rfl, rfl, rfl⟩
  have pipe1 : (s.setFile f0 { s.file f0 with ref := 1 }).pipe = s.pipe := rfl
  generalize s.setFile f0 { s.file f0 with ref := 1 } = s1 at *
  refine .seq (wp_filealloc ?_ fun f1 free1 => ?_)
  · refine .seq (wp_fileclose C1 (C1.one_le (by rw [Pi.single_eq_same])) fun s2 C2 k2 => ?_)
    rw [sub_self] at C2
    exact failed s2 C2 (k1.trans k2)
  have ne : f0 ≠ f1 := by
    intro same
    rw [← same, at0] at free1
    exact absurd free1 one_ne_zero
  have C2 := C1.filealloc free1
  have at1 : (s1.setFile f1 { s1.file f1 with ref := 1 }).file f1 = { s1.file f1 with ref := 1 } :=
    update_self ..
  replace at0 : (s1.setFile f1 { s1.file f1 with ref := 1 }).file f0 =
      { s.file f0 with ref := 1 } := (update_of_ne ne ..).trans at0
  have k2 : Kept s (s1.setFile f1 { s1.file f1 with ref := 1 }) := k1.trans ⟨rfl, rfl, rfl, rfl⟩
  have pipe2 : (s1.setFile f1 { s1.file f1 with ref := 1 }).pipe = s.pipe := pipe1
  generalize s1.setFile f1 { s1.file f1 with ref := 1 } = s2 at *
  match page with
  | none =>
    exact wp_closeBoth C2 fun s3 C3 k3 => failed s3 C3 (k2.trans k3)
  | some pi =>
    have C3 := C2.openPipe pi (by rw [pipe2]; exact Option.isNone_iff_eq_none.mp fresh)
    refine made f0 f1 _ (C3.setEnds ne ?_ ?_ ?_ ?_ rfl ?_) (k2.trans ⟨rfl, rfl, rfl, rfl⟩)
    · show (s2.file f0).type = .none
      rw [at0]
      exact C.typed f0 free0
    · show (s2.file f1).type = .none
      rw [at1]
      exact C1.typed f1 free1
    · show (s2.file f0).ref ≠ 0
      rw [at0]
      exact one_ne_zero
    · show (s2.file f1).ref ≠ 0
      rw [at1]
      exact one_ne_zero
    · show _ = ({ s2.file f1 with type := .pipe, readable := false, writable := true, pipe := pi } : File)
      rw [show ((s2.setPipe pi _).setFile f0 _).file f1 = s2.file f1 from
        update_of_ne ne.symm ..]

end Functions

/-- A process that does not live has no files and no current directory, and one that lives has a
current directory. -/
structure Entries (s : State) : Prop where
  ofile : ∀ p fd, s.life p ≠ .live → s.ofile (p, fd) = none
  dead : ∀ p, s.life p ≠ .live → s.cwd p = none
  cwd : ∀ p, s.life p = .live → s.cwd p ≠ none

structure Inv (s : State) : Prop where
  counted : Counted 0 0 0 s
  entries : Entries s

theorem Entries.kept (E : Entries s) (k : Kept s s') : Entries s' := by
  refine ⟨fun p fd => ?_, fun p => ?_, fun p => ?_⟩
  · rw [k.life, k.ofile]
    exact E.ofile p fd
  · rw [k.life, k.cwd]
    exact E.dead p
  · rw [k.life, k.cwd]
    exact E.cwd p

theorem Entries.change (E : Entries s)
    (other : ∀ p', p' ≠ p → s'.life p' = s.life p' ∧ s'.cwd p' = s.cwd p' ∧
      ∀ fd, s'.ofile (p', fd) = s.ofile (p', fd))
    (dead : s'.life p ≠ .live → s'.cwd p = none ∧ ∀ fd, s'.ofile (p, fd) = none)
    (live : s'.life p = .live → s'.cwd p ≠ none) : Entries s' := by
  refine ⟨fun p' fd hp' => ?_, fun p' hp' => ?_, fun p' hp' => ?_⟩ <;>
    rcases eq_or_ne p' p with rfl | ne
  · exact (dead hp').2 fd
  · rw [(other p' ne).1] at hp'
    exact ((other p' ne).2.2 fd).trans (E.ofile p' fd hp')
  · exact (dead hp').1
  · rw [(other p' ne).1] at hp'
    exact (other p' ne).2.1.trans (E.dead p' hp')
  · exact live hp'
  · rw [(other p' ne).1] at hp'
    rw [(other p' ne).2.1]
    exact E.cwd p' hp'

theorem Entries.setOfile (E : Entries s) (live : s.life p = .live) (fd : Fin nofile)
    (v : Option (Fin nfile)) : Entries (s.setOfile p fd v) :=
  E.change (fun _ ne => ⟨rfl, rfl, fun _ => update_of_ne (fun same => ne (Prod.mk.inj same).1) ..⟩)
    (absurd live) (E.cwd p)

theorem Entries.setCwd (E : Entries s) (live : s.life p = .live) (c : Slot) :
    Entries (s.setCwd p (some c)) := by
  have own : (s.setCwd p (some c)).cwd p = some c := update_self ..
  refine E.change (fun _ ne => ⟨rfl, update_of_ne ne .., fun _ => rfl⟩) (absurd live) fun _ => ?_
  rw [own]
  nofun

section Calls

variable {Q : Int → State → Prop} {np : Fin nproc}

theorem wp_argfd {Q : Option (Fin nofile × Fin nfile) → State → Prop} (bad : Q none s)
    (found : ∀ fd f, s.ofile (s.cur, fd) = some f → Q (some (fd, f)) s) :
    wp (argfd n) Sound Q s := by
  refine .seq ?_
  split
  next range =>
    show Q ((s.ofile (s.cur, ⟨n.toNat, _⟩)).map _) s
    cases slot : s.ofile (s.cur, ⟨n.toNat, by omega⟩) with
    | none => exact bad
    | some f => exact found _ f slot
  next => exact bad

theorem wp_fdalloc {Q : Option (Fin nofile) → State → Prop} (full : Q none s)
    (found : ∀ fd, s.ofile (s.cur, fd) = none → Q (some fd) (s.setOfile s.cur fd (some f))) :
    wp (fdalloc f) Sound Q s := by
  refine .get ?_
  split
  next fd hfd => exact found fd (by simpa using List.find?_some hfd)
  next => exact full

theorem Counted.fdalloc (C : Counted e h g s) (free : s.ofile (p, fd) = none) :
    Counted (e - Pi.single f 1) h g (s.setOfile p fd (some f)) := by
  have changed := C.setOfile p fd (some f)
  rwa [free, pointer_none, add_zero, pointer_some] at changed

theorem Counted.clearfd (C : Counted e h g s) (at_ : s.ofile (p, fd) = some f) :
    Counted (e + Pi.single f 1) h g (s.setOfile p fd none) := by
  have changed := C.setOfile p fd none
  rwa [at_, pointer_some, pointer_none, sub_zero] at changed

theorem inv_sysDup (I : Inv s) (live : s.life s.cur = .live) (n : Int) :
    wp (sysDup n) Sound (fun _ s' => Inv s') s := by
  refine .seq (wp_argfd I fun fd f at_ => ?_)
  refine .seq (wp_fdalloc I fun fd' free => ?_)
  have C := I.counted.fdalloc (f := f) free
  refine .seq (wp_filedup C (I.counted.one_le_of_ofile at_ le_rfl) fun s1 C1 k1 => ?_)
  rw [sub_add_cancel] at C1
  exact ⟨C1, (I.entries.setOfile live _ _).kept k1⟩

theorem inv_sysClose (I : Inv s) (live : s.life s.cur = .live) (n : Int) :
    wp (sysClose sb n) Sound (fun _ s' => Inv s') s := by
  refine .seq (wp_argfd I fun fd f at_ => ?_)
  have C := I.counted.clearfd at_
  refine .modify ?_
  refine .seq (wp_fileclose C (I.counted.one_le_of_ofile at_ le_rfl) fun s1 C1 k1 => ?_)
  rw [add_sub_cancel_right] at C1
  exact ⟨C1, (I.entries.setOfile live _ _).kept k1⟩

theorem inv_sysPipe (I : Inv s) (live : s.life s.cur = .live)
    (fresh : page.all fun pi => (s.pipe pi).ends.isNone) (copyout : Bool) :
    wp (sysPipe sb page copyout) Sound (fun _ s' => Inv s') s := by
  refine .seq (wp_pipealloc I.counted fresh (fun s1 C1 k1 => ?_) fun rf wf s1 C1 k1 => ?_)
  · exact ⟨C1, I.entries.kept k1⟩
  have E1 := I.entries.kept k1
  have live1 := k1.live live
  have undone : ∀ {s2}, Counted (Pi.single rf 1 + Pi.single wf 1) 0 0 s2 → Entries s2 → wp (do
      fileclose sb rf
      fileclose sb wf
      return (-1 : Int)) Sound (fun _ s' => Inv s') s2 := fun C2 E2 =>
    wp_closeBoth C2 fun s' C' k' => ⟨C', E2.kept k'⟩
  refine .seq (wp_fdalloc (undone C1 E1) fun fd0 free0 => ?_)
  have C2 := C1.fdalloc (f := rf) free0
  have E2 := E1.setOfile live1 fd0 (some rf)
  have at0 : (s1.setOfile s1.cur fd0 (some rf)).ofile (s1.cur, fd0) = some rf :=
    update_self ..
  refine .seq (wp_fdalloc ?_ fun fd1 free1 => ?_)
  · have C3 := C2.clearfd at0
    rw [sub_add_cancel] at C3
    exact .modify (undone C3 (E2.setOfile live1 fd0 none))
  have C3 := C2.fdalloc (f := wf) free1
  have E3 := E2.setOfile live1 fd1 (some wf)
  refine wp_ite (fun _ => ?_) fun _ => ?_
  · rw [add_sub_cancel_left, sub_self] at C3
    exact ⟨C3, E3⟩
  · have ne : (s1.cur, fd0) ≠ (s1.cur, fd1) := by
      intro same
      have same : fd0 = fd1 := (Prod.mk.inj same).2
      rw [← same] at free1
      exact nomatch at0.symm.trans free1
    have C4 := C3.clearfd ((update_of_ne ne ..).trans at0)
    have at1 : (((s1.setOfile s1.cur fd0 (some rf)).setOfile s1.cur fd1 (some wf)).setOfile
        s1.cur fd0 none).ofile (s1.cur, fd1) = some wf :=
      (update_of_ne ne.symm ..).trans (update_self ..)
    have C5 := C4.clearfd at1
    refine .modify (.modify ?_)
    refine undone (C5.congr ?_ rfl) ((E3.setOfile live1 fd0 none).setOfile live1 fd1 none)
    abel

theorem wp_giveUp (C : Counted 0 (one ip) 0 s) (E : Entries s) : wp (do
      onFs (Fs.iunlockput sb ip)
      return (-1 : Int)) Sound (fun _ s' => Inv s') s := by
  refine .seq (C.iunlockput fun s1 C1 k1 => ?_)
  rw [sub_self] at C1
  exact ⟨C1, E.kept k1⟩

theorem wp_openInode (C : Counted 0 (one ip) 0 s) (E : Entries s) (live : s.life s.cur = .live) :
    wp (openInode sb ip omode) Sound (fun _ s' => Inv s') s := by
  refine .get (wp_ite (fun _ => wp_giveUp C E) fun _ => ?_)
  refine .seq (wp_filealloc (wp_giveUp C E) fun f free => ?_)
  have C1 := C.filealloc free
  rw [zero_add] at C1
  have k1 : Kept s (s.setFile f { s.file f with ref := 1 }) := ⟨rfl, rfl, rfl, rfl⟩
  have at_ : (s.setFile f { s.file f with ref := 1 }).file f = { s.file f with ref := 1 } :=
    update_self ..
  generalize s.setFile f { s.file f with ref := 1 } = s1 at *
  have E1 := E.kept k1
  refine .seq (wp_fdalloc ?_ fun fd empty => ?_)
  · refine .seq (wp_fileclose C1 (C1.one_le (by rw [Pi.single_eq_same])) fun s2 C2 k2 => ?_)
    rw [sub_self] at C2
    exact wp_giveUp C2 (E1.kept k2)
  have C2 := C1.fdalloc (f := f) empty
  have live1 := k1.live live
  have E2 := E1.setOfile live1 fd (some f)
  rw [sub_self] at C2
  refine .modify ?_
  -- the reference to the inode passes from the call to the file
  have typed : ∀ v : File, v.ref = (s1.file f).ref → v.inode = some ip → (∀ w, v.endOf w = none) →
      Inv ((s1.setOfile s1.cur fd (some f)).setFile f v) := by
    intro v ref inode ends
    have untyped : (s1.file f).type = .none := by
      rw [at_]
      exact C.typed f free
    have used : v.ref ≠ 0 := by
      rw [ref, at_]
      exact one_ne_zero
    have C3 := C2.setType untyped v ref used
    simp only [inode, ends, pointer_some, pointer_none, sub_self, sub_zero] at C3
    exact ⟨C3, E2.kept ⟨rfl, rfl, rfl, rfl⟩⟩
  have finish : ∀ {s' : State}, Inv s' → wp (do
      onFs (Fs.iunlock ip)
      return (fd.val : Int)) Sound (fun _ s' => Inv s') s' := fun I =>
    .seq (I.counted.keeps (Fs.Refs.keeps_iunlock ip) fun _ _ C' k' => ⟨C', I.entries.kept k'⟩)
  have I3 := typed { (s1.setOfile s1.cur fd (some f)).file f with
    type := if (s.itable ip).din.type = tDevice then .device else .inode
    major := if (s.itable ip).din.type = tDevice then (s.itable ip).din.major
      else ((s1.setOfile s1.cur fd (some f)).file f).major
    off := if (s.itable ip).din.type = tDevice then ((s1.setOfile s1.cur fd (some f)).file f).off else 0
    ip := ip
    readable := !omode.wronly
    writable := omode.wronly || omode.rdwr } rfl
    (if_pos (by split <;> first | exact .inl rfl | exact .inr rfl))
    (fun w => if_neg fun both => by split at both <;> exact nomatch both.1)
  refine wp_ite (fun _ => ?_) fun _ => finish I3
  refine .seq (I3.counted.keeps (Fs.Refs.keeps_itrunc ip) fun _ s4 C4 k4 => ?_)
  exact finish ⟨C4, I3.entries.kept k4⟩

theorem Counted.found (C : Counted e h g s) {m : Fs.M (Option Slot)} {Q : Option Slot → State → Prop}
    (spec : ∀ {R : Option Slot → Fs.State → Prop}, (∀ i, 0 ≤ refs s.toFs i) →
      (∀ o t, refs t = refs s.toFs + o.elim 0 one → R o t) → wp m Mild R s.toFs)
    (hh : ∀ i, 0 ≤ h i)
    (post : ∀ o s', Counted e (h + o.elim 0 one) g s' → Kept s s' → Q o s') :
    wp (onFs m) Sound Q s :=
  wp_onFs (spec (C.nonneg hh) fun o t eq => post o _ (C.withFs eq) (kept_withFs s t))

theorem inv_sysOpen (I : Inv s) (live : s.life s.cur = .live) (path : Option Path) (omode : Omode) :
    wp (sysOpen sb path omode) Sound (fun _ s' => Inv s') s := by
  cases path with
  | none => exact I
  | some path =>
    refine wp_ite (fun _ => ?_) fun _ => ?_
    · refine .seq (I.counted.found Fs.Refs.wp_create (fun _ => le_rfl) fun o s1 C1 k1 => ?_)
      rw [zero_add] at C1
      match o with
      | none => exact ⟨C1, I.entries.kept k1⟩
      | some ip => exact wp_openInode C1 (I.entries.kept k1) (k1.live live)
    · refine .seq (I.counted.found Fs.Refs.wp_namei (fun _ => le_rfl) fun o s1 C1 k1 => ?_)
      rw [zero_add] at C1
      match o with
      | none => exact ⟨C1, I.entries.kept k1⟩
      | some ip =>
        refine .seq (C1.ilock (by rw [Option.elim, one, Pi.single_eq_same]) fun s2 C2 k2 => ?_)
        have E2 := I.entries.kept (k1.trans k2)
        refine .get (wp_ite (fun _ => wp_giveUp C2 E2) fun _ => ?_)
        exact wp_openInode C2 E2 ((k1.trans k2).live live)

theorem wp_cwd {Q : Slot → State → Prop} (has : s.cwd s.cur ≠ none)
    (post : ∀ c, s.cwd s.cur = some c → Q c s) : wp cwd Sound Q s := by
  refine .get ?_
  cases at_ : s.cwd s.cur with
  | none => exact absurd at_ has
  | some c => exact post c at_

theorem inv_sysChdir (I : Inv s) (live : s.life s.cur = .live) (path : Option Path) :
    wp (sysChdir sb path) Sound (fun _ s' => Inv s') s := by
  cases path with
  | none => exact I
  | some path =>
    refine .seq (I.counted.found Fs.Refs.wp_namei (fun _ => le_rfl) fun o s1 C1 k1 => ?_)
    rw [zero_add] at C1
    match o with
    | none => exact ⟨C1, I.entries.kept k1⟩
    | some ip =>
      refine .seq (C1.ilock (by rw [Option.elim, one, Pi.single_eq_same]) fun s2 C2 k2 => ?_)
      have E2 := I.entries.kept (k1.trans k2)
      refine .get (wp_ite (fun _ => wp_giveUp C2 E2) fun _ => ?_)
      refine .seq (C2.keeps (Fs.Refs.keeps_iunlock ip) fun _ s3 C3 k3 => ?_)
      have E3 := E2.kept k3
      have live3 := ((k1.trans k2).trans k3).live live
      refine .seq (wp_cwd (E3.cwd _ live3) fun c at_ => ?_)
      refine .seq (C3.iput fun s4 C4 k4 => ?_)
      refine .modify ⟨(C4.setCwd (some ip)).congr rfl ?_, ?_⟩
      · rw [k4.cur, k4.cwd, at_, pointer_some, pointer_some]
        show 0 = one ip - one c + one c - one ip
        abel
      · exact (E3.kept k4).setCwd (k4.live live3) ip

/-- The state changed, apart from the files of the processes and of the files of process `p`. -/
structure Beside (p : Fin nproc) (s s' : State) : Prop where
  ofile : ∀ p' fd, p' ≠ p → s'.ofile (p', fd) = s.ofile (p', fd)
  cwd : s'.cwd = s.cwd
  life : s'.life = s.life
  cur : s'.cur = s.cur

theorem Kept.beside (k : Kept s s') (p : Fin nproc) : Beside p s s' :=
  ⟨fun _ _ _ => by rw [k.ofile], k.cwd, k.life, k.cur⟩

theorem Beside.trans (b : Beside p s s') (b' : Beside p s' s'') : Beside p s s'' :=
  ⟨fun p' fd ne => (b'.ofile p' fd ne).trans (b.ofile p' fd ne), b'.cwd.trans b.cwd,
    b'.life.trans b.life, b'.cur.trans b.cur⟩

theorem beside_setOfile (s : State) (p : Fin nproc) (fd : Fin nofile) (v : Option (Fin nfile)) :
    Beside p s (s.setOfile p fd v) :=
  ⟨fun _ _ ne => update_of_ne (fun same => ne (Prod.mk.inj same).1) .., rfl, rfl, rfl⟩

theorem wp_forkFiles (fds : List (Fin nofile)) :
    ∀ {s : State} {Q : Unit → State → Prop}, Counted 0 h 0 s → fds.Nodup →
    (∀ fd ∈ fds, s.ofile (np, fd) = none) →
    (∀ s', Counted 0 h 0 s' → Beside np s s' → Q () s') → wp (forkFiles np fds) Sound Q s := by
  induction fds with
  | nil =>
    intro s Q C _ _ post
    exact post s C ((Kept.refl s).beside np)
  | cons fd fds ih =>
    intro s Q C nodup empty post
    rw [List.nodup_cons] at nodup
    refine .get ?_
    cases at_ : s.ofile (s.cur, fd) with
    | none => exact ih C nodup.2 (fun fd' hfd' => empty fd' (List.mem_cons_of_mem _ hfd')) post
    | some f =>
      refine .seq (wp_filedup C (C.one_le_of_ofile at_ le_rfl) fun s1 C1 k1 => ?_)
      have none : s1.ofile (np, fd) = none := by
        rw [k1.ofile]
        exact empty fd List.mem_cons_self
      have C2 := C1.fdalloc (f := f) none
      rw [add_sub_cancel_right] at C2
      have b2 := (k1.beside np).trans (beside_setOfile s1 np fd (some f))
      refine .modify (ih C2 nodup.2 (fun fd' hfd' => ?_) fun s' C' b' => ?_)
      · have ne : (np, fd') ≠ (np, fd) := by
          intro same
          rw [(Prod.mk.inj same).2] at hfd'
          exact nodup.1 hfd'
        refine (update_of_ne ne ..).trans ?_
        rw [k1.ofile]
        exact empty fd' (List.mem_cons_of_mem _ hfd')
      · exact post s' C' (b2.trans b')

theorem Entries.beside (E : Entries s) (b : Beside p s s')
    (dead : v ≠ .live → c = none ∧ ∀ fd, s'.ofile (p, fd) = none) (live : v = .live → c ≠ none) :
    Entries ((s'.setCwd p c).setLife p v) := by
  have cwd : ((s'.setCwd p c).setLife p v).cwd p = c := update_self ..
  have life : ((s'.setCwd p c).setLife p v).life p = v := update_self ..
  refine E.change (fun p' ne => ⟨?_, ?_, fun fd => b.ofile p' fd ne⟩) ?_ ?_
  · exact (update_of_ne ne ..).trans (congrFun b.life p')
  · exact (update_of_ne ne ..).trans (congrFun b.cwd p')
  · rwa [cwd, life]
  · rwa [cwd, life]

theorem wp_spawn (E : Entries s) (live : s.life s.cur = .live) (unused : s.life np = .unused)
    (C : Counted 0 0 0 s') (b : Beside np s s') :
    wp (do
      let c ← onFs (Fs.idup (← cwd))
      modify fun s => (s.setCwd np (some c)).setLife np .live
      return (np.val : Int)) Sound (fun _ s' => Inv s') s' := by
  have has : s'.cwd s'.cur ≠ none := by
    rw [b.cwd, b.cur]
    exact E.cwd _ live
  refine .seq (wp_cwd has fun c _ => ?_)
  refine .seq (wp_onFs (Fs.Refs.wp_idup fun t eq => ?_))
  have C1 := (C.withFs eq).setCwd (p := np) (some c)
  have none : (s'.withFs t).cwd np = none := by
    show s'.cwd np = Option.none
    rw [b.cwd]
    exact E.dead np (by rw [unused]; nofun)
  rw [none, pointer_none, add_zero, zero_add, pointer_some, sub_self] at C1
  exact ⟨C1.setLife .live,
    E.beside (b.trans ((kept_withFs s' t).beside np)) (absurd rfl) fun _ => nofun⟩

theorem inv_fork (I : Inv s) (live : s.life s.cur = .live) (ok : Bool) :
    wp (fork ok) Sound (fun _ s' => Inv s') s := by
  refine .get ?_
  split
  next => exact I
  next np found =>
    have unused : s.life np = .unused := by simpa using List.find?_some found
    refine wp_ite (fun _ => ?_) fun _ => I
    refine .seq (wp_forkFiles _ I.counted (List.nodup_finRange _) (fun fd _ => ?_) ?_)
    · exact I.entries.ofile np fd (by rw [unused]; rintro ⟨⟩)
    · intro s1 C1 b1
      exact wp_spawn I.entries live unused C1 b1

theorem inv_threadCreate (I : Inv s) (live : s.life s.cur = .live) (fn stack : UInt64) (ok : Bool) :
    wp (threadCreate fn stack ok) Sound (fun _ s' => Inv s') s := by
  refine wp_ite (fun _ => I) fun _ => .get ?_
  split
  next => exact I
  next np found =>
    have unused : s.life np = .unused := by simpa using List.find?_some found
    refine wp_ite (fun _ => ?_) fun _ => I
    exact wp_spawn I.entries live unused I.counted ((Kept.refl s).beside np)

theorem wp_exitFiles (fds : List (Fin nofile)) :
    ∀ {s : State} {Q : Unit → State → Prop}, Counted 0 h 0 s →
    (∀ fd ∉ fds, s.ofile (s.cur, fd) = none) →
    (∀ s', Counted 0 h 0 s' → Beside s.cur s s' → (∀ fd, s'.ofile (s'.cur, fd) = none) → Q () s') →
    wp (exitFiles sb fds) Sound Q s := by
  induction fds with
  | nil =>
    intro s Q C empty post
    exact post s C ((Kept.refl s).beside s.cur) fun fd => empty fd List.not_mem_nil
  | cons fd fds ih =>
    intro s Q C empty post
    refine .get ?_
    cases at_ : s.ofile (s.cur, fd) with
    | none =>
      refine ih C (fun fd' out => ?_) post
      by_cases same : fd' = fd
      · rw [same, at_]
      · exact empty fd' (by simp [same, out])
    | some f =>
      refine .seq (wp_fileclose C (C.one_le_of_ofile at_ le_rfl) fun s1 C1 k1 => ?_)
      have at1 : s1.ofile (s1.cur, fd) = some f := by rw [k1.ofile, k1.cur, at_]
      have C2 := C1.clearfd at1
      rw [sub_add_cancel] at C2
      have b2 := (k1.beside s.cur).trans (k1.cur ▸ beside_setOfile s1 s1.cur fd none)
      refine .modify (ih C2 (fun fd' out => ?_) fun s' C' b' none => ?_)
      · show update s1.ofile (s1.cur, fd) none (s1.cur, fd') = none
        by_cases same : fd' = fd
        · rw [same, update_self]
        · rw [update_of_ne (fun eq => same (Prod.mk.inj eq).2), k1.ofile, k1.cur]
          exact empty fd' (by simp [same, out])
      · exact post s' C' (b2.trans (k1.cur ▸ b')) none

theorem inv_exit (I : Inv s) (live : s.life s.cur = .live) :
    wp (exit sb) Sound (fun _ s' => Inv s') s := by
  refine .get (wp_ite (fun _ => ⟨nofun, nofun, nofun⟩) fun _ => ?_)
  refine .seq (wp_exitFiles _ I.counted (fun fd out => ?_) fun s1 C1 b1 empty => ?_)
  · exact absurd (List.mem_finRange fd) out
  have has : s1.cwd s1.cur ≠ none := by
    rw [b1.cwd, b1.cur]
    exact I.entries.cwd _ live
  refine .seq (wp_cwd has fun c at_ => .seq (C1.iput fun s2 C2 k2 => ?_))
  have C3 := C2.setCwd (p := s2.cur) none
  rw [k2.cwd, k2.cur, at_, pointer_some, pointer_none, sub_zero, sub_add_cancel] at C3
  have b2 := b1.trans (k2.beside s.cur)
  have empty2 : ∀ fd, s2.ofile (s.cur, fd) = none := by
    rwa [k2.ofile, ← b1.cur]
  refine .modify ?_
  rw [b2.cur]
  rw [b1.cur] at C3
  exact ⟨C3.setLife .zombie, I.entries.beside b2 (fun _ => ⟨rfl, empty2⟩) nofun⟩

theorem inv_wait (I : Inv s) (pp : Fin nproc) : wp (wait pp) Sound (fun _ s' => Inv s') s := by
  refine .get (wp_ite (fun zombie => ?_) fun _ => I)
  have dead : s.life pp ≠ .live := by rw [zombie]; nofun
  refine ⟨I.counted.setLife .unused, I.entries.change (p := pp) ?_ (fun _ => ?_) fun live => ?_⟩
  · exact fun _ ne => ⟨update_of_ne ne .., rfl, fun _ => rfl⟩
  · exact ⟨I.entries.dead pp dead, (I.entries.ofile pp · dead)⟩
  · exact nomatch (update_self ..).symm.trans live

/-- A call that leaves the references to inodes as they were. -/
theorem inv_onFs (I : Inv s) {m : Fs.M Int}
    (same : ∀ {Q : Int → Fs.State → Prop}, (∀ i, 0 ≤ refs s.toFs i) →
      (∀ r t, refs t = refs s.toFs → Q r t) → wp m Mild Q s.toFs) :
    wp (onFs m) Sound (fun _ s' => Inv s') s := by
  refine wp_onFs (same (I.counted.nonneg fun _ => le_rfl) fun _ t eq => ?_)
  refine ⟨(I.counted.withFs (x := 0) (eq.trans (add_zero _).symm)).congr rfl (add_zero _).symm, ?_⟩
  exact I.entries.kept (kept_withFs s t)

theorem inv_syscall (I : Inv s) (live : s.life s.cur = .live) (call : Call)
    (fresh : call.page.all fun pi => (s.pipe pi).ends.isNone) :
    wp (syscall sb call) Sound (fun _ s' => Inv s') s := by
  cases call with
  | «open» path omode => exact inv_sysOpen I live path omode
  | dup fd => exact inv_sysDup I live fd
  | pipe page copyout => exact inv_sysPipe I live fresh copyout
  | close fd => exact inv_sysClose I live fd
  | fork ok => exact inv_fork I live ok
  | threadCreate fn stack ok => exact inv_threadCreate I live fn stack ok
  | chdir path => exact inv_sysChdir I live path
  | exec => exact inv_onFs I Fs.Refs.wp_exec
  | exit => exact inv_exit I live
  | wait pp => exact inv_wait I pp

end Calls

section Runs

variable {d : Disk}

theorem inv_boot (d : Disk) : Inv (boot d) := by
  refine ⟨⟨?_, ?_, fun _ _ => rfl, fun w => ?_, fun pi => nofun, fun pi => rfl⟩, ⟨?_, ?_, ?_⟩⟩
  · show 0 = tally (fun _ => none) + 0
    rw [tally_const_none, add_zero]
  · show (boot d).inodeRefs = tally (fun _ => none) + tally (update (fun _ => none) 0 _) + 0
    rw [tally_update, tally_const_none, tally_const_none]
    have refs := comp_update (fun v : Inode => (v.ref : Int)) Itable.init 0
      { Itable.init 0 with dev := rootdev, inum := rootino, ref := 1 }
    refine refs.trans (funext fun i => ?_)
    by_cases first : i = 0
    · rw [first, update_self]
      rfl
    · rw [update_of_ne first]
      show (0 : Int) = 0 + (0 + (Pi.single 0 1 : Slot → Int) i - 0) + 0
      rw [Pi.single_eq_of_ne first]
      rfl
  · show _ = tally (fun _ => none) + 0
    rw [tally_const_none]
    rfl
  · intro p fd _
    rfl
  · intro p dead
    have other : p ≠ 0 := by
      rintro rfl
      exact dead rfl
    show update (fun _ : Fin nproc => (none : Option Slot)) 0 (some 0) p = none
    rw [update_of_ne other]
  · intro p live
    by_cases first : p = 0
    · rw [first]
      show update (fun _ : Fin nproc => (none : Option Slot)) 0 (some 0) 0 ≠ none
      rw [update_self]
      nofun
    · replace live : update (fun _ => Life.unused) 0 .live p = .live := live
      rw [update_of_ne first] at live
      exact nomatch live

theorem Inv.setCur (I : Inv s) (p : Fin nproc) : Inv { s with cur := p } :=
  ⟨⟨I.counted.files, I.counted.inodes, I.counted.typed, I.counted.ends, I.counted.open_,
    I.counted.once⟩, ⟨I.entries.ofile, I.entries.dead, I.entries.cwd⟩⟩

theorem inv_run (I : Inv s) (enabled : s.Enabled l) :
    wp (syscall sb l.call) Sound (fun _ s' => Inv s') { s with cur := l.p } :=
  inv_syscall (I.setCur l.p) enabled.1 l.call enabled.2

theorem inv_step (I : Inv s) (hs : step sb l s = some s') : Inv s' := by
  unfold step at hs
  split at hs
  next enabled =>
    split at hs
    next r t eq =>
      cases hs
      exact (wp_ok eq).mp (inv_run I enabled)
    next => cases hs
  next => cases hs

theorem inv_of_reach (run : Reach sb d s) : Inv s :=
  run.invariant (I := Inv) (inv_boot d) fun _ _ _ I _ hs => inv_step I hs

theorem Inv.isOpen_iff (I : Inv s) (pi : Nat) (w : Bool) :
    (s.pipe pi).ends.any (Ends.isOpen w) = true ↔ ∃ f, (s.file f).endOf w = some pi := by
  have count := congrFun (I.counted.ends w) pi
  replace count : (s.pipe pi).opens w = tally (File.endOf w ∘ s.file) pi + 0 := count
  rw [add_zero] at count
  constructor
  · intro isOpen
    by_contra none
    rw [tally_eq_zero (g := File.endOf w ∘ s.file).mpr fun f at_ => none ⟨f, at_⟩, Page.opens, if_pos isOpen] at count
    exact one_ne_zero count
  · rintro ⟨f, at_⟩
    have := tally_pos (g := File.endOf w ∘ s.file) at_
    by_contra closed
    rw [Page.opens, if_neg closed] at count
    omega

theorem Inv.isSome_iff (I : Inv s) (pi : Nat) :
    (s.pipe pi).ends.isSome = true ↔ ∃ f, (s.file f).type = .pipe ∧ (s.file f).pipe = pi := by
  have found : (∃ f, (s.file f).type = .pipe ∧ (s.file f).pipe = pi) ↔
      ∃ w, (s.pipe pi).ends.any (Ends.isOpen w) = true := by
    simp only [I.isOpen_iff]
    constructor
    · rintro ⟨f, pipe, rfl⟩
      exact ⟨(s.file f).writable, f, if_pos ⟨pipe, rfl⟩⟩
    · rintro ⟨w, f, at_⟩
      unfold File.endOf at at_
      split at at_
      next is => exact ⟨f, is.1, Option.some.inj at_⟩
      next => cases at_
  rw [found]
  cases ends : (s.pipe pi).ends with
  | none => exact ⟨nofun, fun ⟨_, isOpen⟩ => nomatch isOpen⟩
  | some v =>
    refine ⟨fun _ => ?_, fun _ => rfl⟩
    rcases I.counted.open_ pi v ends with read | write
    · exact ⟨false, read⟩
    · exact ⟨true, write⟩

/-- Between the calls of any run, on any disk, the counts are the numbers of pointers to a file and
to an inode; a file with no references has no type; a page was freed as often as it was made a pipe,
except the last time while a file names it; and no call ends in a panic of `filedup`, `fileclose`
or, for the count, `ilock`, or uses a freed pipe. -/
theorem references_exact (run : Reach sb d s) :
    (∀ f, (s.file f).ref = tally s.ofile f) ∧
      (∀ f, (s.file f).ref = 0 → (s.file f).type = .none) ∧
      (∀ i, (s.itable i).ref = tally (fun f => (s.file f).inode) i + tally s.cwd i) ∧
      (∀ pi, (s.pipe pi).allocs = (s.pipe pi).frees + (if (s.pipe pi).ends.isSome then 1 else 0) ∧
        ((s.pipe pi).ends.isSome = true ↔ ∃ f, (s.file f).type = .pipe ∧ (s.file f).pipe = pi) ∧
        ∀ w, (s.pipe pi).ends.any (Ends.isOpen w) = true ↔ ∃ f, (s.file f).endOf w = some pi) ∧
      ∀ l e, s.Enabled l → s.run sb l = .error e →
        e ≠ .fs .filedup ∧ e ≠ .fs .fileclose ∧ e ≠ .fs .ilock ∧ e ≠ .freed := by
  have I := inv_of_reach run
  refine ⟨fun f => ?_, I.counted.typed, fun i => ?_, fun pi => ?_, fun l e enabled stop => ?_⟩
  · have count := congrFun I.counted.files f
    rwa [add_zero] at count
  · have count := congrFun I.counted.inodes i
    rwa [add_zero] at count
  · exact ⟨I.counted.once pi, I.isSome_iff pi, I.isOpen_iff pi⟩
  · have outcome := (wp_error stop).mp (inv_run I enabled)
    refine ⟨?_, ?_, ?_, ?_⟩
    · rintro rfl
      exact outcome.2.1 rfl
    · rintro rfl
      exact outcome.2.2 rfl
    · rintro rfl
      exact outcome.1 rfl
    · rintro rfl
      exact outcome

def rootPath : Path := ⟨[Fs.slash], by decide⟩

/-- The root is opened and duplicated; a child inherits a pipe, makes a thread and exits; both ends
are closed. -/
theorem references_exact_pipe : ∃ s, Reach Fs.smallFs (Fs.filesDisk Fs.smallFs 0) s ∧
    ((s.file 0).ref = 2 ∧ (s.itable 0).ref = 3 ∧ s.pipe 7 = ⟨none, 1, 1⟩) ∧
    (∀ f, (s.file f).ref = tally s.ofile f) := by
  obtain ⟨s, run, facts⟩ := Transition.exists_reach (step Fs.smallFs) (fun _ _ => True)
    (boot (Fs.filesDisk Fs.smallFs 0))
    [⟨0, .open (some rootPath) ⟨0⟩⟩, ⟨0, .dup 0⟩, ⟨0, .pipe (some 7) true⟩,
      ⟨0, .fork true⟩, ⟨1, .threadCreate 5 6 true⟩, ⟨2, .chdir (some rootPath)⟩,
      ⟨1, .exec (some rootPath) []⟩, ⟨1, .exit⟩, ⟨0, .wait 1⟩, ⟨0, .close 2⟩, ⟨0, .close 3⟩]
    (P := fun s : State => (s.file 0).ref = 2 ∧ (s.itable 0).ref = 3 ∧ s.pipe 7 = ⟨none, 1, 1⟩)
    (by decide +kernel)
  exact ⟨s, run, facts, (references_exact run).1⟩

end Runs

end Xv6.Files
