import Xv6.Fs.Appends
import Xv6.Fs.Boot

/-! No write through a shared descriptor is lost. -/

namespace Xv6.Writers

open Fs Wp List

variable {sb : Superblock} {h : Slot → Nat} {f : Fin nfile} {start fs : Fs.State} {s s' : State}
  {p : Fin nproc} {pc : Pc} {j : Job}

structure Inv (sb : Superblock) (h : Slot → Nat) (f : Fin nfile) (start : Fs.State) (s : State) :
    Prop where
  lock : Locked sb h f start s
  jobs : Jobs s

theorem run_eq_some {α : Type} {m : M α} {a : α}
    (ran : run m p fs = some (a, fs')) : m { fs with cur := p } = .ok (a, fs') := by
  unfold run at ran
  split at ran
  · rename_i r eq
    rw [eq, Option.some.inj ran]
  · cases ran

theorem exists_run {α : Type} {m : M α} {Q : α → Fs.State → Prop}
    (ok : wp m (fun _ => False) Q { fs with cur := p }) : ∃ r, run m p fs = some r := by
  obtain ⟨a, fs', eq, -⟩ := ok.exists_ok
  exact ⟨(a, fs'), by rw [run, eq]⟩

/-- A step that runs `m` on the file system can be taken, and leads to what `m` allows. -/
theorem advances {α : Type} {m : M α} {Q : α → Fs.State → Prop} {next : α × Fs.State → State}
    {r : Option State} {I : State → Prop} (stage : r = (run m p fs).map next)
    (spec : wp m (fun _ => False) Q { fs with cur := p })
    (keeps : ∀ a fs', m { fs with cur := p } = .ok (a, fs') → Q a fs' → I (next (a, fs'))) :
    (∃ s', r = some s') ∧ ∀ s', r = some s' → I s' := by
  obtain ⟨a, fs', ok, post⟩ := spec.exists_ok
  rw [stage, run, ok]
  exact ⟨⟨_, rfl⟩, fun _ hs => Option.some.inj hs ▸ keeps a fs' ok post⟩

theorem Locked.wrote (inv : Locked sb h f start s) :
    ∃ dirty n laid, Wrote sb h f start dirty n laid s.fs := by
  rcases inv.holder with free | ⟨p, own⟩
  · exact ⟨_, _, _, inv.free free⟩
  · have held := (inv.locked p).mpr own
    have stage := inv.stage p
    generalize s.pc p = pc at held stage
    cases pc with
    | user | test | ilock | endOp => cases held
    | writei =>
      obtain ⟨-, cs, -, w⟩ := stage
      exact ⟨_, _, _, w⟩
    | write | finish =>
      obtain ⟨-, -, cs, -, -, -, w⟩ := stage
      exact ⟨_, _, _, w⟩
    | iunlock => exact ⟨_, _, _, stage.2⟩

theorem Locked.ip (inv : Locked sb h f start s) : (s.fs.ftable f).ip = entry f start :=
  let ⟨_, _, _, w⟩ := inv.wrote
  w.ip

theorem Locked.own (inv : Locked sb h f start s) (at_ : s.pc p = pc) (held : pc.holding = true) :
    (s.fs.itable (entry f start)).lock = some p.val :=
  (inv.locked p).mp (by rwa [at_])

section Own

theorem Own.keep (own : Own s pc j) (calls : s'.calls = s.calls) (chunks : s'.chunks = s.chunks)
    (started : pc'.started = pc.started) (more : (j.i : Int) < j.call.n) : Own s' pc' j := by
  obtain ⟨q, at_, le, all⟩ := own.chunks
  refine ⟨by rw [calls]; exact own.call, own.readable, .inr more, q, at_, le, ?_⟩
  rw [started, ← all, State.chunksOf, State.chunksOf, chunks]

theorem Own.more_of_ne (own : Own s pc j) (ne : pc ≠ .test j) : (j.i : Int) < j.call.n :=
  own.more.resolve_left ne

theorem next_chunk (at_ : j.i = min (q * writeMax) j.call.n.toNat)
    (more : (j.i : Int) < j.call.n) : j.i = q * writeMax ∧ q + 1 ≤ j.call.count ∧
      j.i + j.n1 = min ((q + 1) * writeMax) j.call.n.toNat := by
  have width : writeMax = 3072 := rfl
  rw [width] at at_
  rw [Call.count, Job.n1, width]
  omega

theorem Own.chosen (own : Own s (.ilock j) j) (calls : s'.calls = s.calls)
    (chunks : s'.chunks = s.chunks ++ [(j.id, j.chunk)]) : Own s' (.writei j) j := by
  have more := own.more_of_ne nofun
  obtain ⟨q, at_, le, all⟩ := own.chunks
  obtain ⟨exact_, -, -⟩ := next_chunk at_ more
  refine ⟨by rw [calls]; exact own.call, own.readable, .inr more, q, at_, le, ?_⟩
  rw [chunksOf_append chunks, if_pos rfl, all, chunk_eq exact_]
  show (List.range q).map _ ++ _ = (List.range (q + 1)).map _
  rw [range_succ, map_append]
  rfl

theorem Own.next (own : Own s (.endOp j r) j) (calls : s'.calls = s.calls)
    (chunks : s'.chunks = s.chunks) :
    Own s' (.test { j with i := j.i + j.n1 }) { j with i := j.i + j.n1 } := by
  obtain ⟨q, at_, le, all⟩ := own.chunks
  obtain ⟨-, le', at'⟩ := next_chunk at_ (own.more_of_ne nofun)
  refine ⟨by rw [calls]; exact own.call, own.readable, .inl rfl, q + 1, at', le', ?_⟩
  rwa [State.chunksOf, chunks]

end Own

theorem Jobs.keep (jobs : Jobs s) (was : s.pc p = pc) (job : pc.job = some j)
    (pcs : s'.pc = Function.update s.pc p pc') (now : pc'.job = some j)
    (calls : s'.calls = s.calls) (rets : s'.rets = s.rets) (chunks : s'.chunks = s.chunks)
    (started : pc'.started = pc.started) (more : (j.i : Int) < j.call.n) : Jobs s' := by
  have own := jobs.own p j (by rwa [was])
  rw [was] at own
  refine jobs.go (by rwa [was]) pcs now rfl calls rets (fun l _ => ?_) ?_
    (own.keep calls chunks started more)
  · rw [State.chunksOf, State.chunksOf, chunks]
  · rw [chunks]
    exact jobs.ids

theorem ilock_free :
    wp (Fs.ilock sb i) (fun _ => True) (fun _ _ => (fs.itable i).lock = none) fs := by
  unfold Fs.ilock acquiresleep
  simp only [wp_bind, wp_get]
  refine wp_ite (fun _ => trivial) fun _ => ?_
  simp only [wp_bind, wp_get]
  refine wp_ite (fun free => ?_) fun _ => trivial
  simp only [wp_set]
  refine wp_ite (fun _ => free) fun _ => ?_
  simp only [wp_bind, wp_set]
  exact wp_ite (fun _ => trivial) fun _ => free

section Step

variable (o : Opened sb h f start) (inv : Inv sb h f start s)

include inv

theorem Inv.own (was : s.pc p = pc) (job : pc.job = some j) : Own s pc j := by
  have own := inv.jobs.own p j (by rwa [was])
  rwa [was] at own

theorem Inv.test (was : s.pc p = .test j) (hs : step sb f (.run p) s = some s') :
    Inv sb h f start s' := by
  simp only [step, was] at hs
  cases hs
  split
  · rename_i more
    exact ⟨inv.lock.outside rfl rfl rfl (by rw [was]; rfl) rfl trivial,
      inv.jobs.keep was rfl rfl rfl rfl rfl rfl rfl more⟩
  · rename_i done
    exact ⟨inv.lock.outside rfl rfl rfl (by rw [was]; rfl) rfl trivial, inv.jobs.ret was done⟩

theorem Inv.endOp (was : s.pc p = .endOp j r) (hs : step sb f (.run p) s = some s') :
    Inv sb h f start s' := by
  have own := inv.own was rfl
  have whole : r = j.n1 := by
    have stage := inv.lock.stage p
    rwa [was] at stage
  simp only [step, was, whole, ne_eq, not_true_eq_false, if_false] at hs
  cases hs
  refine ⟨inv.lock.outside rfl rfl rfl (by rw [was]; rfl) rfl trivial, ?_⟩
  exact inv.jobs.go (j := j) (by rw [was]; rfl) rfl rfl rfl rfl rfl (fun _ _ => rfl) inv.jobs.ids
    (own.next rfl rfl)

include o

theorem Inv.ilock (was : s.pc p = .ilock j) (hs : step sb f (.run p) s = some s') :
    Inv sb h f start s' := by
  have own := inv.own was rfl
  simp only [step, was] at hs
  obtain ⟨⟨a, fs⟩, ran, rfl⟩ := Option.map_eq_some_iff.mp hs
  have ok := run_eq_some ran
  rw [inv.lock.ip] at ok
  have free : (s.fs.itable (entry f start)).lock = none := (wp_ok ok).mp ilock_free
  obtain ⟨w, lock, valid⟩ := (wp_ok (E := fun _ => False) ok).mp
    (((inv.lock.free free).setCur p).ilock o.held free)
  refine ⟨inv.lock.hold (fun p' _ => inv.lock.nobody free p') lock rfl rfl
    ⟨valid, s.chunks, rfl, w⟩, ?_⟩
  refine inv.jobs.go (j := j) (by rw [was]; rfl) rfl rfl rfl rfl rfl (fun l ne => ?_)
    (fun e mem => ?_) (own.chosen rfl rfl)
  · refine (chunksOf_append rfl l).trans ?_
    rw [if_neg ne.symm, append_nil]
  · rcases mem_append.mp mem with mem | mem
    · exact inv.jobs.ids e mem
    · rw [mem_singleton.mp mem]
      exact own.id_lt

theorem Inv.writei (was : s.pc p = .writei j)
    (fits : (s.fs.ftable f).off.toNat + j.n1 ≤ maxFile * bsize) :
    step sb f (.run p) s = some (s.setPc p (.write j 0 (s.fs.ftable f).off.toNat)) ∧
      Inv sb h f start (s.setPc p (.write j 0 (s.fs.ftable f).off.toNat)) := by
  have own := inv.own was rfl
  have lock := inv.lock.own was rfl
  have stage := inv.lock.stage p
  rw [was] at stage
  obtain ⟨valid, cs, chunks, w⟩ := stage
  have node := w.low.table.node_valid o.held valid
  rw [w.inode] at node
  have size := w.size
  rw [node] at size
  have off := w.off
  have small : maxFile * bsize < 2 ^ 32 := by decide
  have n1 : (UInt32.ofNat j.n1).toNat = j.n1 := by
    rw [UInt32.toNat_ofNat', Nat.mod_eq_of_lt]
    omega
  have add : ((s.fs.ftable f).off + UInt32.ofNat j.n1).toNat =
      (s.fs.ftable f).off.toNat + j.n1 := by
    rw [UInt32.toNat_add, n1, Nat.mod_eq_of_lt]
    omega
  constructor
  · simp only [step, was, inv.lock.ip]
    rw [if_neg, if_neg]
    · rw [add]
      omega
    · simp only [gt_iff_lt, UInt32.lt_iff_toNat_lt, add]
      omega
  · refine ⟨inv.lock.hold (fun p' ne => inv.lock.others lock ne) lock rfl rfl
      ⟨valid, Nat.zero_le _, cs, chunks, by rw [off, add_zero], by omega, ?_⟩,
      inv.jobs.keep was rfl rfl rfl rfl rfl rfl rfl (own.more_of_ne nofun)⟩
    rw [take_zero, append_nil]
    exact w.weaken

theorem Inv.write {tot off : Nat} (was : s.pc p = .write j tot off)
    (space : tot < j.n1 → ∀ t,
      bmap sb (s.fs.ftable f).ip (off / bsize) { s.fs with cur := p } ≠ .ok (0, t)) :
    (∃ s', step sb f (.run p) s = some s') ∧
      ∀ s', step sb f (.run p) s = some s' → Inv sb h f start s' := by
  have own := inv.own was rfl
  have more := own.more_of_ne nofun
  have lock := inv.lock.own was rfl
  have stage := inv.lock.stage p
  rw [was] at stage
  obtain ⟨valid, le, cs, chunks, rfl, fits, w⟩ := stage
  have w' := w.setCur p
  have length : (flat cs ++ j.chunk.take tot).length = (flat cs).length + tot := by
    rw [length_append, length_take, length_chunk own.readable, min_eq_left le]
  rw [inv.lock.ip] at space
  by_cases lt : tot < j.n1
  · have readable : ∀ k < j.n1, j.src k = some (j.chunk.getD k 0) := fun k hk =>
      src_eq own.readable hk
    have once := w'.once (E := fun _ => False) o.held valid lt (by rw [length]; omega) readable
      (by rw [length]; exact space lt)
    rw [length] at once
    refine advances (by simp only [step, was, inv.lock.ip]; rfl) once ?_
    rintro r fs ok ⟨d, pos, upto, rfl, w1, valid1⟩
    have locks : SameLocks s.fs fs := (wp_ok ok).mp wp_writeiLoop_locks
    have lock1 := (locks (entry f start)).trans lock
    dsimp only
    rw [if_neg (by omega)]
    refine ⟨inv.lock.hold (fun p' ne => inv.lock.others lock ne) lock1 rfl rfl
      ⟨valid1, upto, cs, chunks, ?_, fits, ?_⟩, inv.jobs.keep was rfl rfl rfl rfl rfl rfl rfl more⟩
    · omega
    · rwa [append_assoc, take_append_range (by rwa [length_chunk own.readable])] at w1
  · -- the loop has ended
    have whole : tot = j.n1 := by omega
    have ran : run (writeiLoop sb (entry f start) j.src 1 tot
        (off₀ f start + ((flat cs).length + tot)) j.n1) p s.fs =
        some ((tot, off₀ f start + ((flat cs).length + tot)), { s.fs with cur := p }) := by
      rw [run, writeiLoop, if_neg lt]
      rfl
    have stepped : step sb f (.run p) s = some
        { s.setPc p (.finish j tot (off₀ f start + ((flat cs).length + tot))) with
          fs := { s.fs with cur := p } } := by
      simp only [step, was, inv.lock.ip, ran, Option.map_some, if_true]
    refine ⟨⟨_, stepped⟩, fun s' hs => ?_⟩
    cases stepped.symm.trans hs
    exact ⟨inv.lock.hold (fun p' ne => inv.lock.others lock ne) lock rfl rfl
      ⟨valid, whole, cs, chunks, rfl, fits, w'⟩, inv.jobs.keep was rfl rfl rfl rfl rfl rfl rfl more⟩

theorem Inv.finish {tot off : Nat} (was : s.pc p = .finish j tot off) :
    (∃ s', step sb f (.run p) s = some s') ∧
      ∀ s', step sb f (.run p) s = some s' → Inv sb h f start s' := by
  have own := inv.own was rfl
  have more := own.more_of_ne nofun
  have lock := inv.lock.own was rfl
  have stage := inv.lock.stage p
  rw [was] at stage
  obtain ⟨valid, rfl, cs, chunks, rfl, fits, w⟩ := stage
  have whole : j.chunk.take j.n1 = j.chunk :=
    take_of_length_le (length_chunk own.readable).le
  rw [whole] at w
  have length : (flat cs ++ j.chunk).length = (flat cs).length + j.n1 := by
    rw [length_append, length_chunk own.readable]
  have done := (w.setCur p).finish (E := fun _ => False) o.held valid length.symm
    (by rwa [length])
  rw [length] at done
  refine advances (by simp only [step, was, inv.lock.ip]; rfl) done ?_
  rintro _ fs - ⟨w1, valid1, locks⟩
  have lock1 : ((if j.n1 > 0 then advance fs f j.n1 else fs).itable (entry f start)).lock =
      some p.val := by
    split <;> exact (locks (entry f start)).trans lock
  refine ⟨inv.lock.hold (fun p' ne => inv.lock.others lock ne) lock1 rfl rfl ⟨rfl, ?_⟩,
    inv.jobs.keep was rfl rfl rfl rfl rfl rfl rfl more⟩
  have all : flat s.chunks = flat cs ++ j.chunk := by rw [chunks, flat_append]
  show Wrote sb h f start none (flat s.chunks).length (flat s.chunks) _
  rwa [all, length]

theorem Inv.iunlock {r : Int} (was : s.pc p = .iunlock j r) :
    (∃ s', step sb f (.run p) s = some s') ∧
      ∀ s', step sb f (.run p) s = some s' → Inv sb h f start s' := by
  have own := inv.own was rfl
  have lock := inv.lock.own was rfl
  have stage := inv.lock.stage p
  rw [was] at stage
  obtain ⟨whole, w⟩ := stage
  have done := (w.setCur p).iunlock (E := fun _ => False) o.held lock
  refine advances (by simp only [step, was, inv.lock.ip]; rfl) done ?_
  rintro _ fs - ⟨w1, free⟩
  exact ⟨inv.lock.leave lock free rfl rfl whole w1,
    inv.jobs.keep was rfl rfl rfl rfl rfl rfl rfl (own.more_of_ne nofun)⟩

omit o in
theorem Inv.call (readable : n ≤ mem.length)
    (hs : step sb f (.call p mem n) s = some s') : Inv sb h f start s' := by
  obtain ⟨_, _, _, w⟩ := inv.lock.wrote
  simp only [step] at hs
  split at hs
  · rename_i was
    rw [if_pos w.writable] at hs
    cases hs
    exact ⟨inv.lock.outside rfl rfl rfl (by rw [was]; rfl) rfl trivial,
      inv.jobs.call (by rw [was]; rfl) readable rfl rfl rfl rfl⟩
  · cases hs

theorem Inv.step (allowed : Allowed sb f s l) (hs : step sb f l s = some s') :
    Inv sb h f start s' := by
  cases l with
  | call p mem n => exact inv.call allowed hs
  | run p =>
    simp only [Allowed] at allowed
    cases was : s.pc p with
    | user =>
      simp only [Writers.step, was] at hs
      cases hs
    | test j => exact inv.test was hs
    | ilock j => exact inv.ilock o was hs
    | writei j =>
      rw [was] at allowed
      obtain ⟨stepped, inv'⟩ := inv.writei o was allowed
      cases stepped.symm.trans hs
      exact inv'
    | write j tot off =>
      rw [was] at allowed
      exact (inv.write o was allowed).2 s' hs
    | finish j tot off => exact (inv.finish o was).2 s' hs
    | iunlock j r => exact (inv.iunlock o was).2 s' hs
    | endOp j r => exact inv.endOp was hs

theorem Inv.progress (allowed : Allowed sb f s (.run p)) (inCall : s.pc p ≠ .user) :
    (∃ j, s.pc p = .ilock j ∧ (s.fs.itable (entry f start)).lock ≠ none) ∨
      ∃ s', Writers.step sb f (.run p) s = some s' := by
  simp only [Allowed] at allowed
  cases was : s.pc p with
  | user => exact absurd was inCall
  | test j =>
    simp only [Writers.step, was]
    exact .inr ⟨_, rfl⟩
  | ilock j =>
    by_cases free : (s.fs.itable (entry f start)).lock = none
    · obtain ⟨r, ran⟩ := exists_run
        (((inv.lock.free free).setCur p).ilock (E := fun _ => False) o.held free)
      simp only [Writers.step, was, inv.lock.ip, ran]
      exact .inr ⟨_, rfl⟩
    · exact .inl ⟨j, rfl, free⟩
  | writei j =>
    rw [was] at allowed
    exact .inr ⟨_, (inv.writei o was allowed).1⟩
  | write j tot off =>
    rw [was] at allowed
    exact .inr (inv.write o was allowed).1
  | finish j tot off => exact .inr (inv.finish o was).1
  | iunlock j r => exact .inr (inv.iunlock o was).1
  | endOp j r =>
    simp only [Writers.step, was]
    split <;> exact .inr ⟨_, rfl⟩

end Step

theorem Inv.boot (o : Opened sb h f start) : Inv sb h f start (Writers.boot start) := by
  have free : ((Writers.boot start).fs.itable (entry f start)).lock = none := o.unlocked
  refine ⟨⟨fun p => ⟨nofun, fun own => ?_⟩, .inl free, fun _ => o.wrote, fun _ => trivial⟩,
    fun _ _ => nofun, fun _ _ _ _ => nofun, fun _ _ => nofun, fun _ _ => nofun, fun _ => nofun,
    fun _ => nofun, fun _ => nofun⟩
  rw [free] at own
  cases own

theorem Inv.reach (o : Opened sb h f start)
    (run : Transition.Reach (Writers.step sb f) (Allowed sb f) (Writers.boot start) s) :
    Inv sb h f start s :=
  run.invariant (I := Inv sb h f start) (.boot o) fun _ _ _ inv allowed hs => inv.step o allowed hs

section Totals

theorem flatten_chunks (c : Call) : ((List.range c.count).map c.chunk).flatten = c.bytes := by
  have upto : ∀ q, ((List.range q).map c.chunk).flatten = c.bytes.take (q * writeMax) := by
    intro q
    induction q with
    | zero => simp
    | succ q ih =>
      rw [range_succ, map_append, flatten_append, ih, Nat.succ_mul, take_add]
      simp [Call.chunk]
  rw [upto]
  refine take_of_length_le ?_
  have width : writeMax = 3072 := rfl
  rw [Call.bytes, length_take, Call.count, width]
  omega

theorem length_flat : ∀ {cs : List (Nat × List UInt8)}, (∀ e ∈ cs, e.1 < m) →
    (flat cs).length =
      ∑ k ∈ Finset.range m, (((cs.filter (·.1 = k)).map Prod.snd).flatten).length
  | [], _ => by simp [flat]
  | (l, bytes) :: cs, below => by
    have ih := length_flat fun e (mem : e ∈ cs) => below e (mem_cons_of_mem _ mem)
    have here : ∀ k, ((((l, bytes) :: cs).filter (·.1 = k)).map Prod.snd).flatten.length =
        (if l = k then bytes.length else 0) +
          (((cs.filter (·.1 = k)).map Prod.snd).flatten).length := by
      intro k
      by_cases eq : l = k <;> simp [eq]
    simp only [here, Finset.sum_add_distrib, Finset.sum_ite_eq, Finset.mem_range]
    rw [if_pos (below _ (mem_cons_self ..)), ← ih]
    simp [flat]

theorem sum_calls : ∀ {calls : List Call} {F : Nat → Nat},
    (∀ k c, calls[k]? = some c → F k = g c) →
    ∑ k ∈ Finset.range calls.length, F k = (calls.map g).sum
  | [], _, _ => rfl
  | c :: calls, F, eq => by
    rw [length_cons, Finset.sum_range_succ', map_cons, sum_cons, add_comm,
      eq 0 c rfl, sum_calls fun k d hd => eq (k + 1) d hd]

end Totals

/-- After any interleaving of `filewrite` on one file: a call that has returned wrote each of its
chunks once and in order; while the inode's lock is free the bytes from the first offset on are the
chunks in the order of the locks, nothing else has changed, and `f->off` is past them; when no call
runs `f->off` has grown by the bytes of all calls; and only the lock makes a process wait. -/
theorem filewrite_appends (o : Opened sb h f start)
    (run : Transition.Reach (step sb f) (Allowed sb f) (boot start) s) :
    (∀ k r, (k, r) ∈ s.rets → ∃ c, s.calls[k]? = some c ∧ r = c.result ∧
      s.chunksOf k = (List.range c.count).map c.chunk ∧ (s.chunksOf k).flatten = c.bytes) ∧
    ((s.fs.itable (entry f start)).lock = none →
      (s.fs.ftable f).off.toNat = off₀ f start + (flat s.chunks).length ∧
      contents sb s.fs (inum f start) (off₀ f start) (flat s.chunks).length = flat s.chunks ∧
      (node sb s.fs (inum f start)).size.toNat =
        max (size₀ sb f start) (off₀ f start + (flat s.chunks).length) ∧
      ∀ b < size₀ sb f start, b < off₀ f start ∨ off₀ f start + (flat s.chunks).length ≤ b →
        fileByte sb s.fs (inum f start) b = fileByte sb start (inum f start) b) ∧
    ((∀ p, s.pc p = .user) → (s.fs.itable (entry f start)).lock = none ∧
      (∀ k < s.calls.length, ∃ r, (k, r) ∈ s.rets) ∧
      (s.fs.ftable f).off.toNat = off₀ f start + (s.calls.map fun c => c.n.toNat).sum) ∧
    ∀ p, s.pc p ≠ .user → Allowed sb f s (.run p) →
      (∃ j, s.pc p = .ilock j ∧ (s.fs.itable (entry f start)).lock ≠ none) ∨
        ∃ s', step sb f (.run p) s = some s' := by
  have inv := Inv.reach o run
  have complete : ∀ k r, (k, r) ∈ s.rets → ∃ c, s.calls[k]? = some c ∧ r = c.result ∧
      s.chunksOf k = (List.range c.count).map c.chunk ∧ (s.chunksOf k).flatten = c.bytes := by
    intro k r mem
    obtain ⟨c, hc, result, all⟩ := inv.jobs.returned k r mem
    exact ⟨c, hc, result, all, by rw [all, flatten_chunks]⟩
  refine ⟨complete, fun free => ?_, fun idle => ?_, fun p inCall allowed =>
    inv.progress o allowed inCall⟩
  · have w := inv.lock.free free
    refine ⟨w.off, ?_, w.size, fun b hb out => ?_⟩
    · have bytes : ∀ k < (flat s.chunks).length,
          fileByte sb s.fs (inum f start) (off₀ f start + k) = (flat s.chunks).getD k 0 := by
        intro k hk
        rw [w.bytes _ (lt_of_lt_of_le (Nat.add_lt_add_left hk _) (le_max_right _ _)), overlay,
          if_pos (by omega), Nat.add_sub_cancel_left]
      rw [contents_congr bytes]
      refine ext_getElem (by simp) fun k _ hk => ?_
      rw [getElem_map, getElem_range, getD_eq_getElem _ _ hk]
    · rw [w.bytes b (lt_of_lt_of_le hb (le_max_left _ _)), overlay, if_neg (by omega)]
  · have free : (s.fs.itable (entry f start)).lock = none := by
      rcases inv.lock.holder with free | ⟨p, own⟩
      · exact free
      · have held := (inv.lock.locked p).mpr own
        rw [idle p] at held
        cases held
    have returned : ∀ k < s.calls.length, ∃ r, (k, r) ∈ s.rets := by
      intro k lt
      refine (inv.jobs.covered k lt).resolve_left ?_
      rintro ⟨p, j, hj, -⟩
      rw [idle p] at hj
      cases hj
    refine ⟨free, returned, ?_⟩
    rw [(inv.lock.free free).off, length_flat inv.jobs.ids, sum_calls]
    intro k c hc
    obtain ⟨r, mem⟩ := returned k (List.getElem?_eq_some_iff.mp hc).1
    obtain ⟨c', hc', -, -, all⟩ := complete k r mem
    obtain rfl : c' = c := Option.some.inj (hc'.symm.trans hc)
    show (s.chunksOf k).flatten.length = _
    rw [all, length_bytes (inv.jobs.readable c' (mem_of_getElem? hc))]

/-- File 0 is open for the empty file of entry 1. -/
def smallStart : Fs.State :=
  { small 1 2 with ftable := fun _ => ⟨.inode, 2, false, true, 1, 0, 0⟩ }

theorem small_opened : Opened smallFs (startRefs 2) 0 smallStart := by
  have unread : Unread smallStart := start_unread (filesDisk smallFs 1) 2
  have file : node smallFs smallStart 2 = emptyFile :=
    (files_node unread rfl (show 2 < 64 by decide)).trans
      ((if_neg (by decide)).trans (if_pos (by decide)))
  have volume := files_volume unread rfl (by decide) (by decide) (by decide) (by decide +kernel)
  have table := start_table (filesDisk smallFs 1) (show 2 < smallFs.ninodes by decide)
  refine ⟨⟨⟨table.ref_eq, table.dev_eq, table.inum_lt, table.unique, table.typed, table.clean⟩,
    volume⟩, by decide, rfl, rfl, ⟨by decide, ?_⟩, ?_, rfl, Nat.zero_le _⟩
  · rw [show inum 0 smallStart = 2 from rfl, file]
    decide
  · rw [show inum 0 smallStart = 2 from rfl, file]
    decide

/-- The conditions of a step, computed. -/
def allowedTest (s : State) : Label → Bool
  | .call _ mem n => n ≤ mem.length
  | .run p =>
    match s.pc p with
    | .writei j => (s.fs.ftable 0).off.toNat + j.n1 ≤ maxFile * bsize
    | .write _ _ off =>
      match bmap smallFs (s.fs.ftable 0).ip (off / bsize) { s.fs with cur := p } with
      | .ok (a, _) => a ≠ 0
      | .error _ => true
    | _ => true

theorem allowed_of_test (s : State) (l : Label) (ok : allowedTest s l = true) :
    Allowed smallFs 0 s l := by
  cases l with
  | call p mem n => exact of_decide_eq_true (p := n ≤ mem.length) ok
  | run p =>
    simp only [allowedTest] at ok
    simp only [Allowed]
    cases was : s.pc p with
    | writei j =>
      rw [was] at ok
      exact of_decide_eq_true ok
    | write j tot off =>
      rw [was] at ok
      intro _ t eq
      simp only [eq] at ok
      exact absurd rfl (of_decide_eq_true ok)
    | user | test | ilock | finish | iunlock | endOp => trivial

/-- Two processes write one byte each; the second one gets the lock first. -/
def twoWriters : List Label :=
  [.call 0 [65] 1, .call 1 [66] 1, .run 0, .run 1] ++ List.replicate 8 (.run 1) ++
    List.replicate 8 (.run 0)

theorem filewrite_appends_two : ∃ s : State, (∀ p, s.pc p = .user) ∧ s.rets = [(1, 1), (0, 1)] ∧
    contents smallFs s.fs 2 0 2 = [66, 65] := by
  obtain ⟨s, run, idle, rets, chunks⟩ := Transition.exists_reach_of_exec
    (P := fun s : State => (∀ p, s.pc p = .user) ∧ s.rets = [(1, 1), (0, 1)] ∧
      s.chunks = [(1, [66]), (0, [65])]) allowed_of_test twoWriters
    (show (Transition.exec (step smallFs 0) allowedTest twoWriters (boot smallStart)).any _ = true by
      decide +kernel)
  obtain ⟨-, file, quiet, -⟩ := filewrite_appends small_opened run
  have bytes := (file (quiet idle).1).2.1
  rw [chunks] at bytes
  exact ⟨s, idle, rets, bytes⟩

end Xv6.Writers
