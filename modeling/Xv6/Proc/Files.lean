import Xv6.Proc.Ownership

/-! The files and pipes of the processes: the page of a pipe is held as long as one of its ends is
open. -/

namespace Xv6.Proc

open Kernel Vm Wp Tally Function Multiset
open State (page)

variable {n : Nat} {k : Symbols} {s s' : State n} {p q : Fin n} {X : Multiset Addr} {r tf pi : Addr}
  {m : Mem} {E : Stop → Prop} {f g : Fin nfile} {fd : Fin nofile} {e : Fin nfile → Int}

def Ends.isOpen (write : Bool) (v : Ends) : Bool := if write then v.writeopen else v.readopen

def State.ofiles (s : State n) : Fin n × Fin nofile → Option (Fin nfile) :=
  fun a => (s.image a.1).ofile a.2

/-- The counts exceed the numbers of descriptors by `e`; a file not in use is no end of a pipe, and
each end has one file and is open as long as it has. -/
structure Files (e : Fin nfile → Int) (s : State n) : Prop where
  refs : ∀ f, ((s.ftable f).ref : Int) = tally s.ofiles f + e f
  closed : ∀ f, (s.ftable f).ref = 0 → (s.ftable f).pipe = none
  one : ∀ f g x, (s.ftable f).pipe = some x → (s.ftable g).pipe = some x → f = g
  ends : ∀ pi w, (s.pipe pi).isOpen w = true ↔ ∃ f, (s.ftable f).pipe = some (pi, w)

/-- The processes stay as they are, and so do the maps of their page tables. -/
structure Quiet (s s' : State n) : Prop where
  image : s'.image = s.image
  table : s'.table = s.table
  maps : ∀ r ∈ s.roots, mapOf s'.mem.word r = mapOf s.mem.word r

theorem Quiet.refl (s : State n) : Quiet s s := ⟨rfl, rfl, fun _ _ => rfl⟩

theorem Quiet.roots (h : Quiet s s') : s'.roots = s.roots := by
  unfold State.roots
  rw [h.image]

theorem Quiet.trans (h : Quiet s s') (h' : Quiet s' s'') : Quiet s s'' :=
  ⟨h'.image.trans h.image, h'.table.trans h.table, fun r hr =>
    (h'.maps r (h.roots ▸ hr)).trans (h.maps r hr)⟩

section Pipes

theorem mem_pipes : pi ∈ s.pipes ↔ ∃ f w, (s.ftable f).pipe = some (pi, w) := by
  rw [State.pipes, Finset.mem_val, State.pipeSet]
  simp

variable {t : State n}

theorem pipes_eq (same : ∀ pi, pi ∈ t.pipes ↔ pi ∈ s.pipes) : t.pipes = s.pipes :=
  congrArg Finset.val (Finset.ext same)

theorem pipes_congr (same : ∀ f, (t.ftable f).pipe = (s.ftable f).pipe) : t.pipes = s.pipes := by
  refine pipes_eq fun pi => ?_
  rw [mem_pipes, mem_pipes]
  simp only [same]

theorem pipes_cons (out : pi ∉ s.pipes)
    (same : ∀ x, x ∈ t.pipes ↔ x = pi ∨ x ∈ s.pipes) : t.pipes = pi ::ₘ s.pipes := by
  have set : t.pipeSet = insert pi s.pipeSet := by
    ext x
    rw [Finset.mem_insert]
    exact same x
  rw [State.pipes, set]
  exact Finset.insert_val_of_notMem out

variable {v : File}

theorem setFile_self : (s.setFile f v).ftable f = v := update_self ..

theorem setFile_of_ne (ne : g ≠ f) : (s.setFile f v).ftable g = s.ftable g :=
  update_of_ne ne ..

theorem setFile_pipe (same : v.pipe = (s.ftable f).pipe) (g : Fin nfile) :
    ((s.setFile f v).ftable g).pipe = (s.ftable g).pipe := by
  by_cases hg : g = f
  · rw [hg, setFile_self, same]
  · rw [setFile_of_ne hg]

theorem Own.setFile (o : Own k X s) (same : v.pipe = (s.ftable f).pipe) :
    Own k X (s.setFile f v) := by
  unfold Own
  rwa [pipes_congr (setFile_pipe same)]

theorem Files.setRef (F : Files e s) {c : Nat} (pos : c ≠ 0) :
    Files (e + Pi.single f (c - (s.ftable f).ref : Int)) (s.setFile f { s.ftable f with ref := c }) := by
  have same := setFile_pipe (s := s) (f := f) (v := { s.ftable f with ref := c }) rfl
  refine ⟨fun g => ?_, fun g zero => ?_, fun g g' x => ?_, fun pi w => ?_⟩
  · show (((s.setFile f { s.ftable f with ref := c }).ftable g).ref : Int) = tally s.ofiles g + _
    by_cases hg : g = f
    · rw [hg, setFile_self, Pi.add_apply, Pi.single_eq_same]
      have := F.refs f
      show (c : Int) = _
      omega
    · rw [setFile_of_ne hg, Pi.add_apply, Pi.single_eq_of_ne hg, add_zero, F.refs g]
  · rw [same]
    by_cases hg : g = f
    · rw [hg, setFile_self] at zero
      exact absurd zero pos
    · rw [setFile_of_ne hg] at zero
      exact F.closed g zero
  · rw [same, same]
    exact F.one g g' x
  · simp only [same]
    exact F.ends pi w

theorem Files.congr (F : Files e s) (same : e' = e) : Files e' s := same ▸ F

theorem Files.one_le (F : Files e s) (he : 1 ≤ e f) : 1 ≤ (s.ftable f).ref := by
  have := F.refs f
  have := tally_nonneg s.ofiles f
  omega

theorem Files.one_le_of_ofile (F : Files e s) (at_ : (s.image p).ofile fd = some f) (he : 0 ≤ e f) :
    1 ≤ (s.ftable f).ref := by
  have := F.refs f
  have := tally_pos (g := s.ofiles) (a := (p, fd)) at_
  omega

theorem Files.of_same (F : Files e s) (ftable : s'.ftable = s.ftable) (pipe : s'.pipe = s.pipe)
    (ofiles : s'.ofiles = s.ofiles) : Files e s' := by
  refine ⟨fun f => ?_, fun f => ?_, fun f g x => ?_, fun pi w => ?_⟩
  · rw [ftable, ofiles]
    exact F.refs f
  · rw [ftable]
    exact F.closed f
  · rw [ftable]
    exact F.one f g x
  · rw [ftable, pipe]
    exact F.ends pi w

end Pipes

section Close

def Ends.close (writable : Bool) (v : Ends) : Ends :=
  if writable then { v with writeopen := false } else { v with readopen := false }

theorem Ends.isOpen_close (w : Bool) (v : Ends) : (v.close w).isOpen w = false := by
  cases w <;> rfl

variable {w : Bool}

theorem Ends.isOpen_close_other (ne : w' ≠ w) (v : Ends) : (v.close w).isOpen w' = v.isOpen w' := by
  cases w <;> cases w' <;> first | rfl | exact absurd rfl ne

theorem Ends.closed_iff {v : Ends} (closed : v.isOpen w = false) :
    (¬v.readopen = true ∧ ¬v.writeopen = true) ↔ v.isOpen (!w) = false := by
  cases w with
  | true =>
    replace closed : v.writeopen = false := closed
    show _ ↔ v.readopen = false
    simp [closed]
  | false =>
    replace closed : v.readopen = false := closed
    show _ ↔ v.writeopen = false
    simp [closed]

theorem Files.release (F : Files e s) (last : (s.ftable f).ref = 1) :
    (((s.setFile f ⟨0, none⟩).ftable g).ref : Int) =
      tally s.ofiles g + (e - Pi.single f 1 : Fin nfile → Int) g := by
  have count := F.refs g
  by_cases hg : g = f
  · rw [hg, last] at count
    rw [hg, setFile_self, Pi.sub_apply, Pi.single_eq_same]
    show ((0 : Nat) : Int) = _
    omega
  · rw [setFile_of_ne hg, Pi.sub_apply, Pi.single_eq_of_ne hg, sub_zero, count]

theorem pipe_of_release (at_ : ((s.setFile f ⟨0, none⟩).ftable g).pipe = some x) :
    g ≠ f ∧ (s.ftable g).pipe = some x := by
  have hg : g ≠ f := by
    rintro rfl
    rw [setFile_self] at at_
    cases at_
  rw [setFile_of_ne hg] at at_
  exact ⟨hg, at_⟩

theorem Files.closeFile (F : Files e s) (last : (s.ftable f).ref = 1)
    (plain : (s.ftable f).pipe = none) : Files (e - Pi.single f 1) (s.setFile f ⟨0, none⟩) := by
  have same := setFile_pipe (s := s) (f := f) (v := ⟨0, none⟩) plain.symm
  refine ⟨fun g => F.release last, fun g zero => ?_, fun g g' x => ?_, fun pi w => ?_⟩
  · rw [same]
    by_cases hg : g = f
    · rw [hg, plain]
    · rw [setFile_of_ne hg] at zero
      exact F.closed g zero
  · rw [same, same]
    exact F.one g g' x
  · simp only [same]
    exact F.ends pi w

/-- A file for an end of a pipe is closed, and the end with it. -/
theorem Files.closeEnd (F : Files e s) (last : (s.ftable f).ref = 1)
    (at_ : (s.ftable f).pipe = some (pi, w)) :
    Files (e - Pi.single f 1) ((s.setFile f ⟨0, none⟩).setPipe pi ((s.pipe pi).close w)) := by
  refine ⟨fun g => F.release last, fun g zero => ?_, fun g g' x hg hg' => ?_, fun pi' w' => ?_⟩
  · show ((s.setFile f ⟨0, none⟩).ftable g).pipe = none
    by_cases hg : g = f
    · rw [hg, setFile_self]
    · replace zero : ((s.setFile f ⟨0, none⟩).ftable g).ref = 0 := zero
      rw [setFile_of_ne hg] at zero ⊢
      exact F.closed g zero
  · exact F.one g g' x (pipe_of_release hg).2 (pipe_of_release hg').2
  · show (update s.pipe pi ((s.pipe pi).close w) pi').isOpen w' = true ↔
      ∃ g, ((s.setFile f ⟨0, none⟩).ftable g).pipe = some (pi', w')
    by_cases same : pi' = pi ∧ w' = w
    · obtain ⟨rfl, rfl⟩ := same
      rw [update_self, Ends.isOpen_close]
      refine ⟨nofun, fun ⟨g, hg⟩ => ?_⟩
      obtain ⟨ne, hg⟩ := pipe_of_release hg
      exact absurd (F.one g f _ hg at_) ne
    · have ends : (update s.pipe pi ((s.pipe pi).close w) pi').isOpen w' =
          (s.pipe pi').isOpen w' := by
        by_cases hpi : pi' = pi
        · rw [hpi, update_self, Ends.isOpen_close_other fun h => same ⟨hpi, h⟩]
        · rw [update_of_ne hpi]
      rw [ends, F.ends]
      refine exists_congr fun g => ⟨fun hg => ?_, fun hg => (pipe_of_release hg).2⟩
      have ne : g ≠ f := by
        rintro rfl
        rw [at_] at hg
        cases hg
        exact same ⟨rfl, rfl⟩
      rw [setFile_of_ne ne, hg]

/-- The page of the pipe is held on while its other end is open. -/
theorem Files.pipes_close (F : Files e s) (at_ : (s.ftable f).pipe = some (pi, w)) :
    if (s.pipe pi).isOpen (!w) = true then (s.setFile f ⟨0, none⟩).pipes = s.pipes
    else s.pipes = pi ::ₘ (s.setFile f ⟨0, none⟩).pipes := by
  have kept : ∀ x, x ∈ (s.setFile f ⟨0, none⟩).pipes → x ∈ s.pipes := by
    intro x hx
    obtain ⟨g, w', hg⟩ := mem_pipes.mp hx
    exact mem_pipes.mpr ⟨g, w', (pipe_of_release hg).2⟩
  have others : ∀ x, x ≠ pi → x ∈ s.pipes → x ∈ (s.setFile f ⟨0, none⟩).pipes := by
    intro x ne hx
    obtain ⟨g, w', hg⟩ := mem_pipes.mp hx
    refine mem_pipes.mpr ⟨g, w', ?_⟩
    rw [setFile_of_ne, hg]
    rintro rfl
    rw [at_] at hg
    cases hg
    exact ne rfl
  split
  next isOpen =>
    obtain ⟨g, hg⟩ := (F.ends pi (!w)).mp isOpen
    refine pipes_eq fun x => ⟨kept x, fun hx => ?_⟩
    by_cases hpi : x = pi
    · rw [hpi]
      refine mem_pipes.mpr ⟨g, !w, ?_⟩
      rw [setFile_of_ne, hg]
      rintro rfl
      rw [at_, Option.some.injEq, Prod.mk.injEq] at hg
      exact absurd hg.2 (by cases w <;> nofun)
    · exact others x hpi hx
  next closed =>
    refine pipes_cons (fun hpi => ?_) fun x => ⟨fun hx => ?_, fun hx => ?_⟩
    · obtain ⟨g, w', hg⟩ := mem_pipes.mp hpi
      obtain ⟨ne, hg⟩ := pipe_of_release hg
      by_cases hw : w' = w
      · rw [hw] at hg
        exact ne (F.one g f _ hg at_)
      · have flip : w' = !w := by
          cases w <;> cases w' <;> first | rfl | exact absurd rfl hw
        rw [flip] at hg
        exact closed ((F.ends pi (!w)).mpr ⟨g, hg⟩)
    · by_cases hpi : x = pi
      · exact .inl hpi
      · exact .inr (others x hpi hx)
    · rcases hx with rfl | hx
      · exact mem_pipes.mpr ⟨f, w, at_⟩
      · exact kept x hx

theorem wp_fileclose {Q : Unit → State n → Prop} (F : Files e s) (o : Own k X s)
    (pos : 1 ≤ (s.ftable f).ref)
    (post : ∀ s', Files (e - Pi.single f 1) s' → Own k X s' → Quiet s s' → Q () s') :
    wp (fileclose k f) E Q s := by
  refine .seq ?_
  show wp (if (s.ftable f).ref < 1 then throw .fileclose else _) E Q s
  rw [if_neg (by omega)]
  refine wp_ite (fun more => ?_) fun last => ?_
  · refine post _ ((F.setRef (c := (s.ftable f).ref - 1) (by omega)).congr ?_) (o.setFile rfl)
      ⟨rfl, rfl, fun _ _ => rfl⟩
    rw [show (((s.ftable f).ref - 1 : Nat) : Int) - (s.ftable f).ref = -1 by omega, Pi.single_neg,
      sub_eq_add_neg]
  · have last : (s.ftable f).ref = 1 := by omega
    refine .seq (wp_set.mpr ?_)
    cases at_ : (s.ftable f).pipe with
    | none =>
      exact post _ (F.closeFile last at_) (o.setFile at_.symm) ⟨rfl, rfl, fun _ _ => rfl⟩
    | some x =>
      obtain ⟨pi, w⟩ := x
      have F' := F.closeEnd last at_
      have pages := F.pipes_close at_
      have closed := (Ends.closed_iff (Ends.isOpen_close w (s.pipe pi)))
      rw [Ends.isOpen_close_other (by cases w <;> nofun)] at closed
      refine .get (.seq (wp_set.mpr ?_))
      refine wp_ite (fun both => ?_) fun some => ?_
      · rw [if_neg (by rw [closed.mp both]; nofun)] at pages
        have o' : Own k (pi ::ₘ X) ((s.setFile f ⟨0, none⟩).setPipe pi ((s.pipe pi).close w)) := by
          refine Spaces.perm o ?_
          show pi ::ₘ X + s.trapframes + (s.setFile f ⟨0, none⟩).pipes = _
          rw [pages, add_cons, cons_add, cons_add]
        refine o'.wp_kfree fun m o'' kept => post _ (F'.of_same rfl rfl rfl) o'' ⟨rfl, rfl, ?_⟩
        intro r hr
        exact (kept.space hr).mapOf_eq
      · rw [if_pos (by simpa using fun h => some (closed.mpr h))] at pages
        refine post _ F' ?_ ⟨rfl, rfl, fun _ _ => rfl⟩
        refine Spaces.perm o ?_
        show X + s.trapframes + (s.setFile f ⟨0, none⟩).pipes = _
        rw [pages]

end Close

section Open

variable {f0 f1 : Fin nfile} {pi : Addr}

theorem wp_filedup (F : Files e s) (pos : 1 ≤ (s.ftable f).ref)
    (post : Files (e + Pi.single f 1) (s.setFile f { s.ftable f with ref := (s.ftable f).ref + 1 }) →
      Q () (s.setFile f { s.ftable f with ref := (s.ftable f).ref + 1 })) :
    wp (filedup f) E Q s := by
  refine .seq ?_
  show wp (if (s.ftable f).ref < 1 then throw .filedup else _) E Q s
  rw [if_neg (by omega)]
  refine post ((F.setRef (c := (s.ftable f).ref + 1) (by omega)).congr ?_)
  rw [show (((s.ftable f).ref + 1 : Nat) : Int) - (s.ftable f).ref = 1 by omega]

theorem wp_filealloc (full : Q none s)
    (found : ∀ f, (s.ftable f).ref = 0 → Q (some f) (s.setFile f { s.ftable f with ref := 1 })) :
    wp filealloc E Q s := by
  refine .get ?_
  split
  next => exact full
  next f hf => exact found f (by simpa using List.find?_some hf)

theorem Files.filealloc (F : Files e s) (free : (s.ftable f).ref = 0) :
    Files (e + Pi.single f 1) (s.setFile f { s.ftable f with ref := 1 }) := by
  have changed := F.setRef (f := f) (c := 1) one_ne_zero
  rwa [free] at changed

/-- The state after a page has become a pipe with the files `f0` and `f1`. -/
def State.piped (s : State n) (pi : Addr) (f₀ f₁ : Fin nfile) : State n :=
  ((s.setPipe pi ⟨true, true⟩).setFile f₀ { s.ftable f₀ with pipe := some (pi, false) }).setFile f₁
    { s.ftable f₁ with pipe := some (pi, true) }

theorem piped_pipe (pi : Addr) (ne : f0 ≠ f1) (none0 : (s.ftable f0).pipe = none)
    (none1 : (s.ftable f1).pipe = none) (g : Fin nfile) (x : Addr) (w : Bool) :
    ((s.piped pi f0 f1).ftable g).pipe = some (x, w) ↔
      (x = pi ∧ g = if w then f1 else f0) ∨ (s.ftable g).pipe = some (x, w) := by
  unfold State.piped
  by_cases last : g = f1
  · rw [last, setFile_self, none1]
    cases w with
    | true => simp [eq_comm]
    | false => simp [ne.symm]
  · rw [setFile_of_ne last]
    by_cases first : g = f0
    · rw [first, setFile_self, none0]
      cases w with
      | true => simp [ne]
      | false => simp [eq_comm]
    · rw [setFile_of_ne first]
      show (s.ftable g).pipe = some (x, w) ↔ _
      cases w with
      | true => simp [last]
      | false => simp [first]

theorem piped_ref (g : Fin nfile) : ((s.piped pi f0 f1).ftable g).ref = (s.ftable g).ref := by
  unfold State.piped
  by_cases last : g = f1
  · rw [last, setFile_self]
  · rw [setFile_of_ne last]
    by_cases first : g = f0
    · rw [first, setFile_self]
    · rw [setFile_of_ne first]
      rfl

theorem Files.openPipe (F : Files e s) (ne : f0 ≠ f1) (none0 : (s.ftable f0).pipe = none)
    (none1 : (s.ftable f1).pipe = none) (used0 : (s.ftable f0).ref ≠ 0)
    (used1 : (s.ftable f1).ref ≠ 0) (fresh : pi ∉ s.pipes) : Files e (s.piped pi f0 f1) := by
  have pipe := piped_pipe pi ne none0 none1
  have old : ∀ g w, (s.ftable g).pipe ≠ some (pi, w) := fun g w hg =>
    fresh (mem_pipes.mpr ⟨g, w, hg⟩)
  refine ⟨fun g => ?_, fun g zero => ?_, fun g g' x hg hg' => ?_, fun x w => ?_⟩
  · rw [piped_ref]
    exact F.refs g
  · rw [piped_ref] at zero
    by_contra some
    obtain ⟨⟨x, w⟩, hx⟩ := Option.ne_none_iff_exists'.mp some
    rcases (pipe g x w).mp hx with ⟨-, rfl⟩ | hx
    · cases w
      · exact used0 zero
      · exact used1 zero
    · rw [F.closed g zero] at hx
      cases hx
  · obtain ⟨x, w⟩ := x
    rcases (pipe g x w).mp hg with ⟨rfl, rfl⟩ | hg <;> rcases (pipe g' x w).mp hg' with ⟨hx, rfl⟩ | hg'
    · rfl
    · exact absurd hg' (old g' w)
    · rw [hx] at hg
      exact absurd hg (old g w)
    · exact F.one g g' _ hg hg'
  · show (update s.pipe pi ⟨true, true⟩ x).isOpen w = true ↔ _
    by_cases hx : x = pi
    · rw [hx, update_self]
      refine ⟨fun _ => ⟨if w then f1 else f0, (pipe _ pi w).mpr (.inl ⟨rfl, rfl⟩)⟩, fun _ => ?_⟩
      cases w <;> rfl
    · rw [update_of_ne hx, F.ends]
      refine exists_congr fun g => ⟨fun hg => (pipe g x w).mpr (.inr hg), fun hg => ?_⟩
      rcases (pipe g x w).mp hg with ⟨same, -⟩ | hg
      · exact absurd same hx
      · exact hg

theorem piped_pipes (ne : f0 ≠ f1) (none0 : (s.ftable f0).pipe = none)
    (none1 : (s.ftable f1).pipe = none) (fresh : pi ∉ s.pipes) :
    (s.piped pi f0 f1).pipes = pi ::ₘ s.pipes := by
  have pipe := piped_pipe pi ne none0 none1
  refine pipes_cons fresh fun x => ⟨fun hx => ?_, fun hx => ?_⟩
  · obtain ⟨g, w, hg⟩ := mem_pipes.mp hx
    rcases (pipe g x w).mp hg with ⟨rfl, -⟩ | hg
    · exact .inl rfl
    · exact .inr (mem_pipes.mpr ⟨g, w, hg⟩)
  · rcases hx with rfl | hx
    · exact mem_pipes.mpr ⟨f0, false, (pipe f0 x false).mpr (.inl ⟨rfl, rfl⟩)⟩
    · obtain ⟨g, w, hg⟩ := mem_pipes.mp hx
      exact mem_pipes.mpr ⟨g, w, (pipe g x w).mpr (.inr hg)⟩

theorem wp_closeBoth {α : Type} {a : α} {Q : α → State n → Prop}
    (F : Files (Pi.single f0 1 + Pi.single f1 1) s) (ne : f0 ≠ f1) (o : Own k X s)
    (post : ∀ s', Files 0 s' → Own k X s' → Quiet s s' → Q a s') :
    wp (do
      fileclose k f0
      fileclose k f1
      return a) E Q s := by
  refine .seq (wp_fileclose F o (F.one_le ?_) fun s1 F1 o1 q1 => ?_)
  · rw [Pi.add_apply, Pi.single_eq_same, Pi.single_eq_of_ne ne, add_zero]
  rw [add_sub_cancel_left] at F1
  refine .seq (wp_fileclose F1 o1 (F1.one_le ?_) fun s2 F2 o2 q2 => ?_)
  · rw [Pi.single_eq_same]
  rw [sub_self] at F2
  exact post s2 F2 o2 (q1.trans q2)

theorem wp_pipealloc {Q : Option (Fin nfile × Fin nfile) → State n → Prop} (F : Files 0 s)
    (o : Own k X s) (fail : ∀ s', Files 0 s' → Own k X s' → Quiet s s' → Q none s')
    (ok : ∀ f0 f1 s', f0 ≠ f1 → Files (Pi.single f0 1 + Pi.single f1 1) s' → Own k X s' →
      Quiet s s' → Q (some (f0, f1)) s') : wp (pipealloc k) E Q s := by
  refine .seq (wp_filealloc (fail s F o (.refl s)) fun f0 free0 => ?_)
  have F1 := F.filealloc free0
  rw [zero_add] at F1
  have o1 : Own k X (s.setFile f0 { s.ftable f0 with ref := 1 }) := o.setFile rfl
  have at0 : (s.setFile f0 { s.ftable f0 with ref := 1 }).ftable f0 = { s.ftable f0 with ref := 1 } :=
    setFile_self
  have q1 : Quiet s (s.setFile f0 { s.ftable f0 with ref := 1 }) := ⟨rfl, rfl, fun _ _ => rfl⟩
  generalize s.setFile f0 { s.ftable f0 with ref := 1 } = s1 at *
  refine .seq (wp_filealloc ?_ fun f1 free1 => ?_)
  · refine .seq (wp_fileclose F1 o1 (F1.one_le (by rw [Pi.single_eq_same]))
      fun s2 F2 o2 q2 => ?_)
    rw [sub_self] at F2
    exact fail s2 F2 o2 (q1.trans q2)
  have ne : f0 ≠ f1 := by
    rintro rfl
    rw [at0] at free1
    exact absurd free1 one_ne_zero
  have F2 := F1.filealloc free1
  have o2 : Own k X (s1.setFile f1 { s1.ftable f1 with ref := 1 }) := o1.setFile rfl
  have at1 : (s1.setFile f1 { s1.ftable f1 with ref := 1 }).ftable f1 =
      { s1.ftable f1 with ref := 1 } := setFile_self
  replace at0 : (s1.setFile f1 { s1.ftable f1 with ref := 1 }).ftable f0 =
      { s.ftable f0 with ref := 1 } := (setFile_of_ne ne).trans at0
  have q2 : Quiet s (s1.setFile f1 { s1.ftable f1 with ref := 1 }) :=
    q1.trans ⟨rfl, rfl, fun _ _ => rfl⟩
  generalize s1.setFile f1 { s1.ftable f1 with ref := 1 } = s2 at *
  refine .seq (o2.wp_kalloc ?_ fun pi m o3 kept => ?_)
  · exact wp_closeBoth F2 ne o2 fun s3 F3 o3 q3 => fail s3 F3 o3 (q2.trans q3)
  · have none0 : (s2.ftable f0).pipe = none := by
      rw [at0]
      exact F.closed f0 free0
    have none1 : (s2.ftable f1).pipe = none := by
      rw [at1]
      exact F1.closed f1 free1
    have fresh : pi ∉ s2.pipes := by
      intro hpi
      have nd := (nodup_add.mp o3.cons.holds.held_nodup).1
      exact (nodup_cons.mp nd).1 (mem_add.mpr (.inr hpi))
    have used0 : (s2.ftable f0).ref ≠ 0 := by
      rw [at0]
      exact one_ne_zero
    have used1 : (s2.ftable f1).ref ≠ 0 := by
      rw [at1]
      exact one_ne_zero
    have F3 : Files (Pi.single f0 1 + Pi.single f1 1) (s2.setMem m) := F2.of_same rfl rfl rfl
    refine .modify (ok f0 f1 ((s2.setMem m).piped pi f0 f1) ne ?_ ?_ ?_)
    · exact F3.openPipe ne none0 none1 used0 used1 fresh
    · refine Spaces.perm o3 ?_
      rw [piped_pipes (s := s2.setMem m) ne none0 none1 fresh, add_cons, cons_add,
        cons_add]
      rfl
    · exact q2.trans ⟨rfl, rfl, fun r hr => (kept.space hr).mapOf_eq⟩

end Open

/-- The processes keep their memory; those other than `p` keep their descriptors too. -/
structure Still (p : Fin n) (s s' : State n) : Prop where
  pagetable : ∀ q, (s'.image q).pagetable = (s.image q).pagetable
  trapframe : ∀ q, (s'.image q).trapframe = (s.image q).trapframe
  sz : ∀ q, (s'.image q).sz = (s.image q).sz
  image : ∀ q, q ≠ p → s'.image q = s.image q
  table : s'.table = s.table
  maps : ∀ r ∈ s.roots, mapOf s'.mem.word r = mapOf s.mem.word r

section Descriptors

theorem Quiet.still (h : Quiet s s') (p : Fin n) : Still p s s' :=
  ⟨fun _ => by rw [h.image], fun _ => by rw [h.image], fun _ => by rw [h.image],
    fun _ _ => by rw [h.image], h.table, h.maps⟩

theorem Still.refl (p : Fin n) (s : State n) : Still p s s := (Quiet.refl s).still p

theorem Still.roots (h : Still p s s') : s'.roots = s.roots := by
  ext r
  rw [mem_roots, mem_roots]
  exact exists_congr fun q => by rw [h.pagetable q]

theorem Still.trans (h : Still p s s') (h' : Still p s' s'') : Still p s s'' :=
  ⟨fun q => (h'.pagetable q).trans (h.pagetable q), fun q => (h'.trapframe q).trans (h.trapframe q),
    fun q => (h'.sz q).trans (h.sz q), fun q ne => (h'.image q ne).trans (h.image q ne),
    h'.table.trans h.table, fun r hr => (h'.maps r (h.roots ▸ hr)).trans (h.maps r hr)⟩

variable {v : Option (Fin nfile)}

theorem setOfile_ofiles (s : State n) (p : Fin n) (fd : Fin nofile) (v : Option (Fin nfile)) :
    (s.setOfile p fd v).ofiles = update s.ofiles (p, fd) v := by
  funext ⟨q, fd'⟩
  show ((s.setImage p _).image q).ofile fd' = _
  by_cases hq : q = p
  · rw [hq, setImage_self]
    show update (s.image p).ofile fd v fd' = _
    by_cases hfd : fd' = fd
    · rw [hfd, update_self, update_self]
    · rw [update_of_ne hfd, update_of_ne fun e => hfd (Prod.mk.inj e).2]
      rfl
  · rw [setImage_of_ne hq, update_of_ne fun e => hq (Prod.mk.inj e).1]
    rfl

theorem still_setOfile (s : State n) (p : Fin n) (fd : Fin nofile) (v : Option (Fin nfile)) :
    Still p s (s.setOfile p fd v) := by
  have self : (s.setOfile p fd v).image p =
      { s.image p with ofile := update (s.image p).ofile fd v } := setImage_self
  have other : ∀ q, q ≠ p → (s.setOfile p fd v).image q = s.image q := fun q => setImage_of_ne
  refine ⟨fun q => ?_, fun q => ?_, fun q => ?_, fun q ne => ?_, rfl, fun _ _ => rfl⟩
  · by_cases hq : q = p
    · rw [hq, self]
    · rw [other q hq]
  · by_cases hq : q = p
    · rw [hq, self]
    · rw [other q hq]
  · by_cases hq : q = p
    · rw [hq, self]
    · rw [other q hq]
  · exact other q ne

theorem Files.setOfile (F : Files e s) (p : Fin n) (fd : Fin nofile) (v : Option (Fin nfile)) :
    Files (e + pointer ((s.image p).ofile fd) - pointer v) (s.setOfile p fd v) := by
  refine ⟨fun f => ?_, F.closed, F.one, F.ends⟩
  rw [setOfile_ofiles, tally_update]
  have := F.refs f
  show ((s.ftable f).ref : Int) = (tally s.ofiles + pointer v - pointer ((s.image p).ofile fd)) f +
    (e + pointer ((s.image p).ofile fd) - pointer v) f
  simp only [Pi.add_apply, Pi.sub_apply]
  omega

theorem Own.setOfile (o : Own k X s) (p : Fin n) (fd : Fin nofile) (v : Option (Fin nfile)) :
    Own k X (s.setOfile p fd v) := o.setImage rfl rfl

theorem wp_fdalloc (full : Q none s)
    (found : ∀ fd, (s.image p).ofile fd = none → Q (some fd) (s.setOfile p fd (some f))) :
    wp (fdalloc p f) E Q s := by
  refine .get ?_
  split
  next => exact full
  next fd hfd => exact found fd (by simpa using List.find?_some hfd)

theorem Files.fdalloc (F : Files e s) (free : (s.image p).ofile fd = none) :
    Files (e - Pi.single f 1) (s.setOfile p fd (some f)) := by
  have changed := F.setOfile p fd (some f)
  rwa [free, pointer_none, add_zero, pointer_some] at changed

theorem Files.clearfd (F : Files e s) (at_ : (s.image p).ofile fd = some f) :
    Files (e + Pi.single f 1) (s.setOfile p fd none) := by
  have changed := F.setOfile p fd none
  rwa [at_, pointer_some, pointer_none, sub_zero] at changed

theorem setOfile_self : ((s.setOfile p fd v).image p).ofile fd = v := by
  show ((s.setImage p _).image p).ofile fd = v
  rw [setImage_self]
  exact update_self ..

theorem setOfile_of_ne (ne : fd' ≠ fd) :
    ((s.setOfile p fd v).image p).ofile fd' = (s.image p).ofile fd' := by
  show ((s.setImage p _).image p).ofile fd' = _
  rw [setImage_self]
  exact update_of_ne ne ..

theorem wp_sysClose (F : Files 0 s) (o : Own k X s)
    (post : ∀ b s', Files 0 s' → Own k X s' → Still p s s' → Q b s') :
    wp (sysClose k p fd) E Q s := by
  refine .get ?_
  cases at_ : (s.image p).ofile fd with
  | none => exact post false s F o (.refl p s)
  | some f =>
    refine .seq (wp_set.mpr (.seq ?_))
    have F' := F.clearfd at_
    refine wp_fileclose F' (o.setOfile p fd none) (F.one_le_of_ofile at_ le_rfl) fun s1 F1 o1 q1 => ?_
    rw [add_sub_cancel_right] at F1
    exact post true s1 F1 o1 ((still_setOfile s p fd none).trans (q1.still p))

theorem wp_sysPipe {fdarray : UInt64} {Q : Bool → State n → Prop} (F : Files 0 s) (o : Own k X s)
    (at_ : (s.image p).pagetable = some r) (top : Top k (mapOf s.mem.word r) tf)
    (post : ∀ b s', Files 0 s' → Own k X s' → Still p s s' → Q b s') :
    wp (sysPipe k p fdarray) E Q s := by
  refine .seq (wp_pipealloc F o (fun s1 F1 o1 q1 => post false s1 F1 o1 (q1.still p))
    fun f0 f1 s1 ne F1 o1 q1 => ?_)
  refine .seq (wp_fdalloc ?_ fun fd0 free0 => ?_)
  · exact wp_closeBoth F1 ne o1 fun s2 F2 o2 q2 => post false s2 F2 o2 ((q1.trans q2).still p)
  have F2 := F1.fdalloc (f := f0) free0
  have o2 := o1.setOfile p fd0 (some f0)
  have st2 := (q1.still p).trans (still_setOfile s1 p fd0 (some f0))
  have at0 : ((s1.setOfile p fd0 (some f0)).image p).ofile fd0 = some f0 := setOfile_self
  generalize s1.setOfile p fd0 (some f0) = s2 at *
  refine .seq (wp_fdalloc ?_ fun fd1 free1 => ?_)
  · have F3 := F2.clearfd at0
    rw [sub_add_cancel] at F3
    refine .modify (wp_closeBoth F3 ne (o2.setOfile p fd0 none)
      fun s4 F4 o4 q4 => post false s4 F4 o4 ?_)
    exact (st2.trans (still_setOfile s2 p fd0 none)).trans (q4.still p)
  have ne' : fd0 ≠ fd1 := by
    rintro rfl
    rw [at0] at free1
    cases free1
  have F3 := F2.fdalloc (f := f1) free1
  rw [add_sub_cancel_left, sub_self] at F3
  have o3 := o2.setOfile p fd1 (some f1)
  have st3 := st2.trans (still_setOfile s2 p fd1 (some f1))
  have at1 : ((s2.setOfile p fd1 (some f1)).image p).ofile fd1 = some f1 := setOfile_self
  replace at0 : ((s2.setOfile p fd1 (some f1)).image p).ofile fd0 = some f0 :=
    (setOfile_of_ne ne').trans at0
  generalize s2.setOfile p fd1 (some f1) = s3 at *
  have at_3 : (s3.image p).pagetable = some r := (st3.pagetable p).trans at_
  have top3 : Top k (mapOf s3.mem.word r) tf := by rwa [st3.maps r (roots_mem at_)]
  refine .get (.seq ?_)
  rw [pagetable_eq at_3]
  refine o3.wp_user (roots_mem at_3) (fun R u => ?_) fun b m o4 maps _ => ?_
  · refine .seq (wp_copyout u top3 fun b m u' kept => ?_)
    refine wp_ite (fun _ => ?_) fun _ => ⟨u', kept⟩
    exact wp_copyout u' top3 fun b' m' u'' kept' => ⟨u'', kept.trans kept'⟩
  have F4 : Files 0 (s3.setMem m) := F3.of_same rfl rfl rfl
  have st4 : Still p s (s3.setMem m) :=
    st3.trans ⟨fun _ => rfl, fun _ => rfl, fun _ => rfl, fun _ _ => rfl, rfl, maps⟩
  replace at0 : ((s3.setMem m).image p).ofile fd0 = some f0 := at0
  replace at1 : ((s3.setMem m).image p).ofile fd1 = some f1 := at1
  generalize s3.setMem m = s4 at *
  refine wp_ite (fun _ => post true s4 F4 o4 st4) fun _ => ?_
  have F5 := F4.clearfd at0
  replace at1 : ((s4.setOfile p fd0 none).image p).ofile fd1 = some f1 :=
    (setOfile_of_ne ne'.symm).trans at1
  have F6 := F5.clearfd at1
  rw [zero_add] at F6
  have st6 := (st4.trans (still_setOfile s4 p fd0 none)).trans
    (still_setOfile (s4.setOfile p fd0 none) p fd1 none)
  refine .modify (wp_closeBoth F6 ne
    ((o4.setOfile p fd0 none).setOfile p fd1 none) fun s7 F7 o7 q7 => post false s7 F7 o7 ?_)
  exact st6.trans (q7.still p)

theorem wp_exitFiles (fds : List (Fin nofile)) :
    ∀ {s : State n} {Q : Unit → State n → Prop}, Files 0 s → Own k X s →
    (∀ fd ∉ fds, (s.image p).ofile fd = none) →
    (∀ s', Files 0 s' → Own k X s' → Still p s s' → (∀ fd, (s'.image p).ofile fd = none) → Q () s') →
    wp (fds.forM fun fd => do
      match ((← get).image p).ofile fd with
      | some f =>
        fileclose k f
        modify fun s => s.setOfile p fd none
      | none => return) E Q s := by
  induction fds with
  | nil =>
    intro s Q F o empty post
    exact post s F o (.refl p s) fun fd => empty fd List.not_mem_nil
  | cons fd fds ih =>
    intro s Q F o empty post
    refine wp_forM_cons.mpr (.get ?_)
    cases at_ : (s.image p).ofile fd with
    | none =>
      refine ih F o (fun fd' out => ?_) post
      by_cases same : fd' = fd
      · rw [same, at_]
      · exact empty fd' (by simp [same, out])
    | some f =>
      refine .seq (wp_fileclose F o (F.one_le_of_ofile at_ le_rfl) fun s1 F1 o1 q1 => ?_)
      have at1 : (s1.image p).ofile fd = some f := by rw [q1.image, at_]
      have F2 := F1.clearfd at1
      rw [sub_add_cancel] at F2
      have st := (q1.still p).trans (still_setOfile s1 p fd none)
      refine wp_modify.mpr (ih F2 (o1.setOfile p fd none) (fun fd' out => ?_)
        fun s' F' o' st' none => post s' F' o' (st.trans st') none)
      by_cases same : fd' = fd
      · rw [same, setOfile_self]
      · rw [setOfile_of_ne same, q1.image]
        exact empty fd' (by simp [same, out])

theorem wp_forkFiles (fds : List (Fin nofile)) :
    ∀ {s : State n} {Q : Unit → State n → Prop}, Files 0 s → Own k X s → np ≠ p → fds.Nodup →
    (∀ fd ∈ fds, (s.image np).ofile fd = none) →
    (∀ s', Files 0 s' → Own k X s' → Still np s s' → s'.mem = s.mem → Q () s') →
    wp (fds.forM fun fd => do
      match ((← get).image p).ofile fd with
      | some f =>
        filedup f
        modify fun s => s.setOfile np fd (some f)
      | none => return) E Q s := by
  induction fds with
  | nil =>
    intro s Q F o _ _ _ post
    exact post s F o (.refl np s) rfl
  | cons fd fds ih =>
    intro s Q F o ne nodup empty post
    rw [List.nodup_cons] at nodup
    refine wp_forM_cons.mpr (.get ?_)
    cases at_ : (s.image p).ofile fd with
    | none => exact ih F o ne nodup.2 (fun fd' hfd' => empty fd' (List.mem_cons_of_mem _ hfd')) post
    | some f =>
      refine .seq (wp_filedup F (F.one_le_of_ofile at_ le_rfl) fun F1 => ?_)
      have o1 : Own k X (s.setFile f { s.ftable f with ref := (s.ftable f).ref + 1 }) := o.setFile rfl
      have q1 : Quiet s (s.setFile f { s.ftable f with ref := (s.ftable f).ref + 1 }) :=
        ⟨rfl, rfl, fun _ _ => rfl⟩
      have mem1 : (s.setFile f { s.ftable f with ref := (s.ftable f).ref + 1 }).mem = s.mem := rfl
      generalize s.setFile f { s.ftable f with ref := (s.ftable f).ref + 1 } = s1 at *
      have none : (s1.image np).ofile fd = none := by
        rw [q1.image]
        exact empty fd List.mem_cons_self
      have F2 := F1.fdalloc (f := f) none
      rw [add_sub_cancel_right] at F2
      have st := (q1.still np).trans (still_setOfile s1 np fd (some f))
      refine wp_modify.mpr (ih F2 (o1.setOfile np fd (some f)) ne nodup.2 (fun fd' hfd' => ?_)
        fun s' F' o' st' mem' => post s' F' o' (st.trans st') (mem'.trans mem1))
      have ne' : fd' ≠ fd := by
        rintro rfl
        exact nodup.1 hfd'
      rw [setOfile_of_ne ne', q1.image]
      exact empty fd' (List.mem_cons_of_mem _ hfd')

end Descriptors

end Xv6.Proc
