import Xv6.Virtio.System

/-! What the driver does with descriptors: `alloc3_desc` takes three or none, `virtio_disk_rw`
writes a command into them, and `free_chain` gives them back. -/

namespace Xv6.Virtio

open Function List

variable {P B : Type}

section Descriptors

variable {s s' t : State P B} {i more : Nat} {idx : List Nat}

theorem allocDesc_some (h : s.allocDesc = some (i, t)) :
    i < num ∧ s.disk.free i = true ∧ t = { s with disk := s.disk.setFree i false } := by
  obtain ⟨j, found, eq⟩ := Option.map_eq_some_iff.mp h
  cases eq
  exact ⟨mem_range.mp (mem_of_find?_eq_some found), List.find?_some found, rfl⟩

/-- The descriptors `idx`, which were free in `s`, have been taken. -/
structure Took (s : State P B) (idx : List Nat) (t : State P B) : Prop where
  state : t = { s with disk := { s.disk with free := fun i => s.disk.free i && !idx.contains i } }
  nodup : idx.Nodup
  bound : ∀ i ∈ idx, i < num
  free : ∀ i ∈ idx, s.disk.free i = true

/-- The descriptors `idx` have been freed. -/
structure Freed (s : State P B) (idx : List Nat) (t : State P B) : Prop where
  state : t = { s with
    disk := { s.disk with desc := t.disk.desc, free := fun i => idx.contains i || s.disk.free i }
    asleep := t.asleep }
  desc : ∀ i, i ∉ idx → t.disk.desc i = s.disk.desc i
  asleep : ∀ p, t.asleep p = true → s.asleep p = true

theorem freeDesc_ok (bound : i < num) (taken : s.disk.free i = false) :
    ∃ t, s.freeDesc i = .ok t ∧ Freed s [i] t := by
  refine ⟨_, by rw [State.freeDesc, if_neg (by omega), if_neg (by rw [taken]; nofun)], ?_, ?_, ?_⟩
  · have free : update s.disk.free i true = fun j => [i].contains j || s.disk.free j := by
      funext j
      by_cases hj : j = i
      · rw [hj, update_self]
        simp
      · rw [update_of_ne hj]
        simp [hj]
    rw [← free]
    rfl
  · intro j hj
    exact update_of_ne (by simpa using hj) ..
  · intro p hp
    simp only [State.wakeupFree] at hp
    split at hp
    · cases hp
    · exact hp

theorem Freed.cons (first : Freed s [i] t) (rest : Freed t idx s') : Freed s (i :: idx) s' := by
  refine ⟨?_, fun j hj => ?_, fun p hp => first.asleep p (rest.asleep p hp)⟩
  · have free : (fun j => (i :: idx).contains j || s.disk.free j) =
        fun j => idx.contains j || ([i].contains j || s.disk.free j) := by
      funext j
      simp only [contains_cons, contains_nil, Bool.or_false]
      rw [Bool.or_comm (j == i), Bool.or_assoc]
    rw [rest.state, first.state, free]
  · rw [rest.desc j (fun h => hj (mem_cons_of_mem _ h)),
      first.desc j (fun h => hj (by rw [mem_singleton.mp h]; exact mem_cons_self ..))]

theorem Freed.free_of (h : Freed s idx t) : t.disk.free i = (idx.contains i || s.disk.free i) := by
  rw [h.state]

theorem freeDescs_ok : ∀ {idx : List Nat} {s : State P B}, idx.Nodup → (∀ i ∈ idx, i < num) →
    (∀ i ∈ idx, s.disk.free i = false) → ∃ t, State.freeDescs idx s = .ok t ∧ Freed s idx t
  | [], s, _, _, _ => ⟨s, rfl, rfl, fun _ _ => rfl, fun _ => id⟩
  | i :: idx, s, nodup, bound, taken => by
    obtain ⟨fresh, nodup⟩ := nodup_cons.mp nodup
    obtain ⟨t, ok, first⟩ := freeDesc_ok (bound i (mem_cons_self ..))
      (taken i (mem_cons_self ..))
    have still : ∀ j ∈ idx, t.disk.free j = false := fun j hj => by
      rw [first.free_of, taken j (mem_cons_of_mem _ hj)]
      have ne : j ≠ i := by
        rintro rfl
        exact fresh hj
      simp [ne]
    obtain ⟨s', oks, rest⟩ := freeDescs_ok nodup
      (fun j hj => bound j (mem_cons_of_mem _ hj)) still
    refine ⟨s', ?_, first.cons rest⟩
    rwa [State.freeDescs, ok]

/-- The state after an `alloc3_desc` that fails: what it had taken is free again. -/
structure Failed (s t : State P B) : Prop where
  state : t = { s with disk := { s.disk with desc := t.disk.desc }, asleep := t.asleep }
  desc : ∀ i, s.disk.free i = false → t.disk.desc i = s.disk.desc i
  asleep : ∀ p, t.asleep p = true → s.asleep p = true

theorem Took.failed (took : Took s idx t) (freed : Freed t idx t') : Failed s t' := by
  refine ⟨?_, fun j hj => ?_, fun p hp => ?_⟩
  · have free : (fun i => idx.contains i || (s.disk.free i && !idx.contains i)) = s.disk.free := by
      funext i
      by_cases hi : i ∈ idx
      · simp [hi, took.free i hi]
      · simp [hi]
    rw [freed.state, took.state, free]
  · rw [freed.desc j, took.state]
    intro hj'
    rw [took.free j hj'] at hj
    cases hj
  · have := freed.asleep p hp
    rwa [took.state] at this

theorem Took.next (took : Took s idx t) (found : t.allocDesc = some (i, s')) :
    Took s (idx ++ [i]) s' := by
  obtain ⟨bound, free, rfl⟩ := allocDesc_some found
  have free' : s.disk.free i = true ∧ i ∉ idx := by
    rw [took.state] at free
    simpa using free
  refine ⟨?_, ?_, ?_, ?_⟩
  · have same : (fun j => s.disk.free j && !(idx ++ [i]).contains j) =
        update (fun j => s.disk.free j && !idx.contains j) i false := by
      funext j
      by_cases hj : j = i
      · rw [hj, update_self]
        simp
      · rw [update_of_ne hj]
        simp [hj]
    rw [same, took.state]
    rfl
  · refine took.nodup.append (nodup_singleton i) ?_
    intro j hj hi
    rw [mem_singleton.mp hi] at hj
    exact free'.2 hj
  · intro j hj
    rcases mem_append.mp hj with hj | hj
    · exact took.bound j hj
    · rwa [mem_singleton.mp hj]
  · intro j hj
    rcases mem_append.mp hj with hj | hj
    · exact took.free j hj
    · rw [mem_singleton.mp hj]
      exact free'.1

/-- `alloc3_desc` gives the descriptors it was asked for, or none. -/
theorem alloc3Loop_ok : ∀ (more : Nat) {idx : List Nat} {t : State P B}, Took s idx t →
    (∃ idx' t', State.alloc3Loop more idx t = .ok (some idx', t') ∧ Took s idx' t' ∧
      idx'.length = idx.length + more) ∨
    ∃ t', State.alloc3Loop more idx t = .ok (none, t') ∧ Failed s t'
  | 0, idx, t, took => .inl ⟨idx, t, rfl, took, rfl⟩
  | more + 1, idx, t, took => by
    cases found : t.allocDesc with
    | none =>
      have taken : ∀ i ∈ idx, t.disk.free i = false := fun i hi => by
        rw [took.state]
        simp [hi]
      obtain ⟨t', ok, freed⟩ := freeDescs_ok took.nodup took.bound taken
      refine .inr ⟨t', ?_, took.failed freed⟩
      rw [State.alloc3Loop, found]
      rw [ok]
      rfl
    | some r =>
      obtain ⟨i, t1⟩ := r
      have next := took.next found
      obtain ⟨-, -, rfl⟩ := allocDesc_some found
      have go : State.alloc3Loop (more + 1) idx t =
          State.alloc3Loop more (idx ++ [i]) { t with disk := t.disk.setFree i false } := by
        rw [State.alloc3Loop, found]
      rw [go]
      rcases alloc3Loop_ok more next with ⟨idx', t', ok, took', len⟩ | failed
      · refine .inl ⟨idx', t', ok, took', ?_⟩
        rw [len, length_append, length_singleton]
        omega
      · exact .inr failed

theorem alloc3Desc_ok (s : State P B) :
    (∃ (c : Chain) (t : State P B), s.alloc3Desc = .ok (some c.toList, t) ∧ Took s c.toList t) ∨
    ∃ t, s.alloc3Desc = .ok (none, t) ∧ Failed s t := by
  have start : Took s [] s := by
    refine ⟨?_, nodup_nil, nofun, nofun⟩
    simp
  rcases alloc3Loop_ok 3 start with ⟨idx, t, ok, took, len⟩ | failed
  · obtain ⟨i, j, k, rfl⟩ := length_eq_three.mp len
    exact .inl ⟨⟨i, j, k⟩, t, ok, took⟩
  · exact .inr failed

theorem Chain.ofList_toList (c : Chain) : Chain.ofList c.toList = c := rfl

end Descriptors

/-- The request `r` has its descriptors, and they say what it asks for. -/
structure Formatted (d : Disk B) (r : Request P B) : Prop where
  bound : ∀ i ∈ r.chain.toList, i < num
  nodup : r.chain.toList.Nodup
  taken : ∀ i ∈ r.chain.toList, d.free i = false
  head : d.desc r.chain.head = {
    addr := .op r.chain.head, len := 16, flags := descFNext, next := UInt16.ofNat r.chain.data }
  data : d.desc r.chain.data = {
    addr := .data r.command.buf
    len := r.command.len
    flags := (if r.command.write then 0 else descFWrite) ||| descFNext
    next := UInt16.ofNat r.chain.status }
  status : d.desc r.chain.status = {
    addr := .status r.chain.head, len := 1, flags := descFWrite, next := 0 }
  op : d.ops r.chain.head = {
    type := if r.command.write then blkTOut else blkTIn
    reserved := 0
    sector := r.command.sector }
  buf : (d.info r.chain.head).b = some r.command.buf

section Formatted

variable {d d' : Disk B} {r : Request P B} {i : Nat} {s : State P B}

theorem Chain.head_mem (c : Chain) : c.head ∈ c.toList := mem_cons_self ..

theorem Chain.data_mem (c : Chain) : c.data ∈ c.toList :=
  mem_cons_of_mem _ (mem_cons_self ..)

theorem Chain.status_mem (c : Chain) : c.status ∈ c.toList :=
  mem_cons_of_mem _ (mem_cons_of_mem _ (mem_cons_self ..))

theorem Formatted.toNat_ofNat (f : Formatted d r) (hi : i ∈ r.chain.toList) :
    (UInt16.ofNat i).toNat = i := by
  exact UInt16.toNat_ofNat_of_lt' ((f.bound i hi).trans (by decide))

theorem Formatted.congr (f : Formatted d r)
    (same : ∀ i ∈ r.chain.toList, d'.free i = d.free i ∧ d'.desc i = d.desc i ∧
      d'.ops i = d.ops i ∧ (d'.info i).b = (d.info i).b) : Formatted d' r where
  bound := f.bound
  nodup := f.nodup
  taken i hi := (same i hi).1.trans (f.taken i hi)
  head := (same _ r.chain.head_mem).2.1.trans f.head
  data := (same _ r.chain.data_mem).2.1.trans f.data
  status := (same _ r.chain.status_mem).2.1.trans f.status
  op := (same _ r.chain.head_mem).2.2.1.trans f.op
  buf := (same _ r.chain.head_mem).2.2.2.trans f.buf

theorem dataFlags_next (write : Bool) :
    ((if write then 0 else descFWrite) ||| descFNext) &&& descFNext ≠ 0 := by
  cases write <;> decide

theorem dataFlags_write (write : Bool) :
    ((if write then 0 else descFWrite) ||| descFNext) &&& descFWrite = 0 ↔
      (if write then blkTOut else blkTIn) = blkTOut := by
  cases write <;> decide

theorem type_eq (write : Bool) :
    decide ((if write then blkTOut else blkTIn) = blkTOut) = write := by
  cases write <;> decide

theorem Formatted.command (f : Formatted d r) :
    d.command r.chain.head = some (r.command, r.chain.head) := by
  unfold Disk.command
  simp only [f.head, f.toNat_ofNat r.chain.data_mem, f.data, f.toNat_ofNat r.chain.status_mem,
    f.status, f.op]
  have ends : ¬(descFNext &&& descFNext = 0 ∨
      ((if r.command.write then 0 else descFWrite) ||| descFNext) &&& descFNext = 0 ∨
      descFWrite &&& descFNext ≠ 0) := by
    rintro (h | h | h)
    · exact absurd h (by decide)
    · exact dataFlags_next _ h
    · exact h (by decide)
  rw [if_neg ends, if_pos ⟨dataFlags_write _, by decide⟩, type_eq]

theorem Formatted.submit (bound : ∀ i ∈ c.toList, i < num) (nodup : c.toList.Nodup)
    (taken : ∀ i ∈ c.toList, d.free i = false) :
    Formatted (d.submit c cmd) (⟨p, cmd, c⟩ : Request P B) := by
  have ne : c.head ≠ c.data ∧ c.head ≠ c.status ∧ c.data ≠ c.status := by
    simpa [Chain.toList, and_assoc] using nodup
  refine ⟨bound, nodup, taken, ?_, ?_, ?_, ?_, ?_⟩
  · show update (update (update _ _ _) _ _) _ _ _ = _
    rw [update_of_ne ne.2.1, update_of_ne ne.1, update_self]
  · show update (update (update _ _ _) _ _) _ _ _ = _
    rw [update_of_ne ne.2.2, update_self]
  · exact update_self ..
  · exact update_self ..
  · show (update d.info c.head { b := some cmd.buf, status := 0xff } c.head).b = _
    rw [update_self]

theorem submit_other (d : Disk B) (cmd : Command B) (other : i ∉ c.toList) :
    (d.submit c cmd).desc i = d.desc i ∧ (d.submit c cmd).ops i = d.ops i ∧
      (d.submit c cmd).info i = d.info i := by
  have ne : i ≠ c.head ∧ i ≠ c.data ∧ i ≠ c.status := by
    simpa [Chain.toList] using other
  refine ⟨?_, update_of_ne ne.1 .., update_of_ne ne.1 ..⟩
  show update (update (update _ _ _) _ _) _ _ _ = _
  rw [update_of_ne ne.2.2, update_of_ne ne.2.1, update_of_ne ne.1]

theorem freeChainLoop_next (ok : s.freeDesc i = .ok t)
    (next : (s.disk.desc i).flags &&& descFNext ≠ 0) : State.freeChainLoop (fuel + 1) s i =
      State.freeChainLoop fuel t (s.disk.desc i).next.toNat := by
  simp only [State.freeChainLoop, ok, Except.bind]
  rw [if_pos next]

theorem freeChainLoop_last (ok : s.freeDesc i = .ok t)
    (last : (s.disk.desc i).flags &&& descFNext = 0) :
    State.freeChainLoop (fuel + 1) s i = .ok t := by
  simp only [State.freeChainLoop, ok, Except.bind]
  rw [if_neg (not_not.mpr last)]

theorem Formatted.freeChain (f : Formatted d r) (desc : s.disk.desc = d.desc)
    (free : s.disk.free = d.free) :
    ∃ t, s.freeChain r.chain.head = .ok t ∧ Freed s r.chain.toList t := by
  have ne : r.chain.head ≠ r.chain.data ∧ r.chain.head ≠ r.chain.status ∧
      r.chain.data ≠ r.chain.status := by
    simpa [Chain.toList, and_assoc] using f.nodup
  have taken : ∀ i ∈ r.chain.toList, s.disk.free i = false := by
    rw [free]
    exact f.taken
  obtain ⟨t1, ok1, freed1⟩ := freeDesc_ok (f.bound _ r.chain.head_mem) (taken _ r.chain.head_mem)
  have data : t1.disk.desc r.chain.data = d.desc r.chain.data := by
    rw [freed1.desc _ (by simpa using ne.1.symm), desc]
  have free1 : t1.disk.free r.chain.data = false := by
    rw [freed1.free_of, taken _ r.chain.data_mem]
    simpa using ne.1.symm
  obtain ⟨t2, ok2, freed2⟩ := freeDesc_ok (f.bound _ r.chain.data_mem) free1
  have status : t2.disk.desc r.chain.status = d.desc r.chain.status := by
    rw [freed2.desc _ (by simpa using ne.2.2.symm), freed1.desc _ (by simpa using ne.2.1.symm), desc]
  have free2 : t2.disk.free r.chain.status = false := by
    rw [freed2.free_of, freed1.free_of, taken _ r.chain.status_mem]
    simpa using ⟨ne.2.2.symm, ne.2.1.symm⟩
  obtain ⟨t3, ok3, freed3⟩ := freeDesc_ok (f.bound _ r.chain.status_mem) free2
  refine ⟨t3, ?_, freed1.cons (freed2.cons freed3)⟩
  rw [State.freeChain, freeChainLoop_next ok1, desc, f.head]
  · rw [f.toNat_ofNat r.chain.data_mem, freeChainLoop_next ok2, data, f.data]
    · rw [f.toNat_ofNat r.chain.status_mem, freeChainLoop_last ok3]
      rw [status, f.status]
      show descFWrite &&& descFNext = 0
      decide
    · rw [data, f.data]
      exact dataFlags_next _
  · rw [desc, f.head]
    show descFNext &&& descFNext ≠ 0
    decide

end Formatted

end Xv6.Virtio
