import Xv6.Vm.Table
import Xv6.Lib.Run

/-! One page table over time, while the rest of the kernel uses the allocator. In every state it
stands for the map that the operations build from the empty one. -/

namespace Xv6.Vm

open Wp Transition Function Multiset

/-- What a page table is for: a map from page numbers to physical pages and flags. -/
abbrev Mapping : Type := Nat → Option (Addr × UInt64)

namespace Mapping

variable (f : Mapping)

def map (v : Nat) (pa perm : UInt64) : Mapping := update f v (some (pa, perm ||| pteV))

def unmap (lo n : Nat) : Mapping := fun v => if lo ≤ v ∧ v < lo + n then none else f v

def clearUser (v : Nat) : Mapping :=
  update f v ((f v).map fun e => (e.1, e.2 &&& ~~~pteU))

def physical (lo n : Nat) : Multiset Addr :=
  ∑ v ∈ Finset.Ico lo (lo + n), (f v).elim 0 fun e => {e.1}

/-- What `walkaddr` gives for a page: its physical page if the user may use it, and 0 otherwise. -/
def user (v : Nat) : UInt64 :=
  match f v with
  | none => 0
  | some (pa, flags) => if flags &&& pteU = 0 then 0 else pa

end Mapping

/-- What an entry says, if it is valid. -/
def mapping (v : UInt64) : Option (Addr × UInt64) :=
  if v &&& pteV ≠ 0 then some (pte2pa v, pteFlags v) else none

/-- The memory, the map, and the pages that the rest of the kernel holds. -/
structure Space where
  mem : Mem
  map : Mapping
  held : Multiset Addr

inductive Op
  | kalloc
  | kfree (pa : Addr)
  | write (pa : Addr) (v : Page)
  | mappages (va pa perm : UInt64)
  | uvmunmap (va npages : UInt64) (do_free : Bool)
  | uvmclear (va : UInt64)

/-- An operation on the memory and, as far as its result says that it took place, on the map and on
the pages held. -/
def Op.run (k : Symbols) (pt : Addr) (f : Mapping) (held : Multiset Addr) :
    Op → M (Mapping × Multiset Addr)
  | .kalloc => do
    match ← Vm.kalloc with
    | none => return (f, held)
    | some pa => return (f, pa ::ₘ held)
  | .kfree pa => do
    Vm.kfree k pa
    return (f, held.erase pa)
  | .write pa v => do
    modify fun m => m.setPage pa v
    return (f, held)
  | .mappages va pa perm => do
    if ← Vm.mappages pt va pgsize pa perm then return (f.map (va.toNat / 4096) pa perm, held)
    else return (f, held)
  | .uvmunmap va np do_free => do
    Vm.uvmunmap k pt va np do_free
    let n := visits va np
    return (f.unmap (va.toNat / 4096) n,
      if do_free then held - f.physical (va.toNat / 4096) n else held)
  | .uvmclear va => do
    Vm.uvmclear pt va
    return (f.clearUser (va.toNat / 4096), held)

def step (k : Symbols) (pt : Addr) (op : Op) (s : Space) : Option Space :=
  match op.run k pt s.map s.held s.mem with
  | .error _ => none
  | .ok ((map, held), mem) => some { mem, map, held }

/-- The rest of the kernel uses its own pages only; an entry can hold what is to be mapped; and
`uvmunmap` frees only pages from the allocator. -/
def Allowed (s : Space) : Op → Prop
  | .kalloc => True
  | .kfree pa => pa ∈ s.held
  | .write pa _ => pa ∈ s.held
  | .mappages _ pa perm => pa.toNat % 4096 = 0 ∧ pa.toNat < 2 ^ 56 ∧ perm.toNat < 1024
  | .uvmunmap va np do_free =>
    do_free = true → s.map.physical (va.toNat / 4096) (visits va np) ≤ s.held
  | .uvmclear _ => True

instance (s : Space) : DecidablePred (Allowed s)
  | .kalloc => inferInstanceAs (Decidable True)
  | .kfree pa => inferInstanceAs (Decidable (pa ∈ s.held))
  | .write pa _ => inferInstanceAs (Decidable (pa ∈ s.held))
  | .mappages _ pa perm =>
    inferInstanceAs (Decidable (pa.toNat % 4096 = 0 ∧ pa.toNat < 2 ^ 56 ∧ perm.toNat < 1024))
  | .uvmunmap va np do_free =>
    inferInstanceAs (Decidable (do_free = true →
      s.map.physical (va.toNat / 4096) (visits va np) ≤ s.held))
  | .uvmclear _ => inferInstanceAs (Decidable True)

/-- The operations that the map has a meaning for: they map what is not mapped, and unmap and change
what is. -/
def Proper (f : Mapping) : Op → Prop
  | .mappages va _ _ => va.toNat % 4096 = 0 ∧ va < maxva ∧ f (va.toNat / 4096) = none
  | .uvmunmap va np _ => va.toNat % 4096 = 0 ∧ ∀ v, va.toNat / 4096 ≤ v →
      v < va.toNat / 4096 + visits va np → ∃ e, f v = some e ∧ e.2 ≠ pteV
  | .uvmclear va => va < maxva ∧ f (va.toNat / 4096) ≠ none
  | _ => True

variable {k : Symbols} {pt : Addr} {s s' : Space} {f : Map} {lo n : Nat} {va pa perm : UInt64}
  {E : Stop → Prop}

/-- The map of addresses and flags that a map of entries stands for. -/
def Map.mapping (f : Map) : Mapping := fun v => (f v).map fun e => (pte2pa e, pteFlags e)

section Maps

variable {v : Nat}

theorem Map.mapping_eq_none : f.mapping v = none ↔ f v = none := Option.map_eq_none_iff

theorem Map.mapping_update : Map.mapping (update f v e) =
      update f.mapping v (e.map fun e => (pte2pa e, pteFlags e)) := by
  funext u
  simp only [Map.mapping, update_apply]
  split <;> rfl

theorem Map.mapping_map (aligned : pa.toNat % 4096 = 0) (small : pa.toNat < 2 ^ 56)
    (flags : perm.toNat < 1024) :
    Map.mapping (update f v (some (pa2pte pa ||| perm ||| pteV))) =
      f.mapping.map v pa perm := by
  have fits : (perm ||| pteV).toNat < 1024 := by
    rw [UInt64.toNat_or]
    exact Nat.or_lt_two_pow (n := 10) flags (by decide)
  rw [Map.mapping_update, UInt64.or_assoc, Option.map_some, pte2pa_entry aligned small fits,
    pteFlags_entry fits, Mapping.map]

theorem Map.mapping_erase : (f.erase lo n).mapping = f.mapping.unmap lo n := by
  funext v
  simp only [Map.mapping, Map.erase, Mapping.unmap]
  split <;> rfl

theorem Map.mapping_clear :
    Map.mapping (update f v ((f v).map (· &&& ~~~pteU))) = f.mapping.clearUser v := by
  rw [Map.mapping_update, Mapping.clearUser, Map.mapping]
  cases f v with
  | none => rfl
  | some e => simp only [Option.map_some, pte2pa_clear, pteFlags_clear]

theorem Map.physical_mapping : f.mapping.physical lo n = f.pages lo n := by
  refine Finset.sum_congr rfl fun v _ => ?_
  rw [Map.mapping]
  cases f v <;> rfl

end Maps

def Stands (k : Symbols) (pt : Addr) (s : Space) : Prop :=
  ∃ f : Map, Table k s.mem s.held pt f ∧ s.map = f.mapping


theorem Stands.kalloc (t : Stands k pt s) (E : Stop → Prop) :
    wp (Op.run k pt s.map s.held .kalloc) E (fun r m => Stands k pt ⟨m, r.1, r.2⟩) s.mem := by
  obtain ⟨f, t, e⟩ := t
  refine .seq (wp_kalloc t.holds (fun _ => ⟨f, t, e⟩) fun x fresh m' h' same => ?_)
  refine ⟨f, t.congr (fun y hy => same y ?_) ?_, e⟩
  · rintro rfl
    exact fresh (mem_add.mpr (.inr hy))
  · rwa [cons_add]

theorem Stands.kfree (t : Stands k pt s) (held : x ∈ s.held) (E : Stop → Prop) :
    wp (Op.run k pt s.map s.held (.kfree x)) E (fun r m => Stands k pt ⟨m, r.1, r.2⟩) s.mem := by
  obtain ⟨f, t, e⟩ := t
  have h := t.holds
  rw [← cons_erase held, cons_add] at h
  refine .seq (wp_kfree h fun m' h' same => ?_)
  refine ⟨f, t.congr (fun y hy => same y ?_) h', e⟩
  rintro rfl
  exact t.not_mem held hy

theorem Stands.write (t : Stands k pt s) (held : x ∈ s.held) :
    Stands k pt ⟨s.mem.setPage x v, s.map, s.held⟩ := by
  obtain ⟨f, t, e⟩ := t
  refine ⟨f, t.congr (fun y hy => Mem.setPage_of_ne ?_) ⟨t.holds.part, t.holds.once⟩, e⟩
  rintro rfl
  exact t.not_mem held hy

theorem walk_panics (high : ¬va < maxva) (err : ∀ e, E e) : wp (walk pt va alloc) E Q m := by
  rw [walk, if_pos (UInt64.not_lt.mp high)]
  exact err _

section

variable (t : Stands k pt s)

include t

theorem Stands.mappages (allowed : Allowed s (.mappages va pa perm))
    (err : Proper s.map (.mappages va pa perm) ∨ ∀ e, E e) :
    wp (Op.run k pt s.map s.held (.mappages va pa perm)) E
      (fun r m => Stands k pt ⟨m, r.1, r.2⟩) s.mem := by
  obtain ⟨f, t, e⟩ := t
  obtain ⟨aligned, small, flags⟩ := allowed
  refine .seq ?_
  by_cases hva : va.toNat % 4096 = 0
  swap
  · rw [Vm.mappages, if_pos (mt mod_pgsize.mp hva)]
    exact err.resolve_left (fun p => hva p.1) _
  by_cases high : va < maxva
  swap
  · have err := err.resolve_left fun p => high p.2.1
    rw [Vm.mappages, if_neg (not_not.mpr (mod_pgsize.mpr hva)), if_neg (by decide),
      if_neg (by decide)]
    exact .seq (walk_panics high err)
  refine wp_mappages t hva high (fun mapped => ?_) (fun m' t' _ _ => ?_) fun _ m' t' _ => ?_
  · refine err.resolve_left (fun p => mapped ?_) _
    have none := p.2.2
    rwa [e, Map.mapping_eq_none] at none
  · exact ⟨f, t', e⟩
  · exact ⟨_, t', by rw [e, Map.mapping_map aligned small flags]⟩

theorem Stands.uvmunmap (allowed : Allowed s (.uvmunmap va np do_free))
    (err : Proper s.map (.uvmunmap va np do_free) ∨ ∀ e, E e) :
    wp (Op.run k pt s.map s.held (.uvmunmap va np do_free)) E
      (fun r m => Stands k pt ⟨m, r.1, r.2⟩) s.mem := by
  obtain ⟨f, t, e⟩ := t
  refine .seq ?_
  by_cases hva : va.toNat % 4096 = 0
  swap
  · rw [Vm.uvmunmap, if_pos (mt mod_pgsize.mp hva)]
    exact err.resolve_left (fun p => hva p.1) _
  have freed : f.freed do_free (va.toNat / 4096) (visits va np) +
      (if do_free then s.held - s.map.physical (va.toNat / 4096) (visits va np) else s.held) =
        s.held := by
    cases do_free with
    | false => exact zero_add _
    | true =>
      have le := allowed rfl
      rw [if_pos rfl, e, Map.physical_mapping] at *
      exact add_tsub_cancel_of_le le
  rw [← freed] at t
  refine wp_uvmunmap t (by omega) (err.imp (fun p v h1 h2 => ?_) id) fun m' t' _ => ?_
  · obtain ⟨_, mapped, flags⟩ := p.2 v h1 h2
    rw [e, Map.mapping] at mapped
    obtain ⟨w, hw, rfl⟩ := Option.map_eq_some_iff.mp mapped
    exact ⟨w, hw, flags⟩
  · exact ⟨_, t', by rw [e, Map.mapping_erase]⟩

theorem Stands.uvmclear (err : Proper s.map (.uvmclear va) ∨ ∀ e, E e) :
    wp (Op.run k pt s.map s.held (.uvmclear va)) E
      (fun r m => Stands k pt ⟨m, r.1, r.2⟩) s.mem := by
  obtain ⟨f, t, e⟩ := t
  refine .seq ?_
  by_cases high : va < maxva
  swap
  · exact .seq (walk_panics high (err.resolve_left fun p => high p.1))
  refine wp_uvmclear t high (err.imp (fun p => ?_) fun all => all _) fun m' t' _ => ?_
  · rw [Ne, ← Map.mapping_eq_none, ← e]
    exact p.2
  · exact ⟨_, t', by rw [e, Map.mapping_clear]⟩

/-- Every operation keeps the table and the map in step, and does not panic where the map has a
meaning for it. -/
theorem Stands.run (allowed : Allowed s op) (err : Proper s.map op ∨ ∀ e, E e) :
    wp (op.run k pt s.map s.held) E (fun r m => Stands k pt ⟨m, r.1, r.2⟩) s.mem := by
  cases op with
  | kalloc => exact t.kalloc E
  | kfree x => exact t.kfree allowed E
  | write x v => exact t.write allowed
  | mappages va pa perm => exact t.mappages allowed err
  | uvmunmap va np do_free => exact t.uvmunmap allowed err
  | uvmclear va => exact t.uvmclear err

theorem Stands.step (allowed : Allowed s op) (h : step k pt op s = some s') : Stands k pt s' := by
  have spec := t.run allowed (.inr fun _ => trivial) (E := fun _ => True)
  unfold Vm.step at h
  split at h
  · cases h
  · cases h
    rename_i hrun
    exact (wp_ok hrun).mp spec

theorem Stands.step_of_proper (allowed : Allowed s op) (proper : Proper s.map op) :
    ∃ s', Vm.step k pt op s = some s' := by
  obtain ⟨r, m', hrun, -⟩ := (t.run allowed (.inl proper)).exists_ok
  exact ⟨⟨m', r.1, r.2⟩, by rw [Vm.step, hrun]⟩

end

section Reads

variable {m : Mem} {R : Multiset Addr}

theorem Table.mapping_slot (t : Table k m R pt f) (h : va < maxva) :
    ((Radix.slot fmt m.word (ix va) 2 pt).bind fun p => mapping (m.word p.1 p.2)) =
      f.mapping (va.toNat / 4096) := by
  have split : ∀ w, mapping w = (fmt.entry w).map fun e => (pte2pa e, pteFlags e) := by
    intro w
    simp only [mapping, fmt]
    split <;> rfl
  rw [Map.mapping, ← t.look h, Radix.look, Option.map_bind]
  exact congrArg _ (funext fun p => split _)

theorem Table.walkaddr (t : Table k m R pt f) (h : va < maxva) :
    walkaddr pt va m = .ok (f.mapping.user (va.toNat / 4096), m) := by
  have spec : wp (Vm.walkaddr pt va) (fun _ => False)
      (fun r m' => r = f.mapping.user (va.toNat / 4096) ∧ m' = m) m := by
    refine wp_walkaddr t.toTree (fun none => ⟨?_, rfl⟩) fun e _ he user => ⟨?_, rfl⟩
    · rw [Mapping.user, Map.mapping]
      cases he : f (va.toNat / 4096) with
      | none => rfl
      | some e =>
        have kernel := none h e he
        rw [and_flags (by decide)] at kernel
        exact (if_pos kernel).symm
    · rw [and_flags (by decide)] at user
      rw [Mapping.user, Map.mapping, he]
      exact (if_neg user).symm
  obtain ⟨r, m', hrun, rfl, rfl⟩ := spec.exists_ok
  exact hrun

theorem Table.bare (t : Table k m R pt f) (empty : ∀ v, f v = none) : Bare E m.word 2 pt :=
  ⟨t.inner, fun i e he => by
    rw [t.maps, empty] at he
    cases he⟩

theorem Table.freewalk (t : Table k m R pt f) (empty : ∀ v, f v = none)
    (deep : levels ≤ depth) : ∃ m', freewalk k depth pt m = .ok ((), m') ∧ Holds k m' R ∧
      (m'.freelist : Multiset Addr) = tablePages m.word pt + m.freelist := by
  obtain ⟨⟨⟩, m', hrun, h', -⟩ := (wp_freewalk (show 2 < depth from deep) t.holds
    (t.bare empty)).exists_ok
  refine ⟨m', hrun, h', ?_⟩
  have parts := h'.part.trans t.holds.part.symm
  rw [add_comm R, ← add_assoc] at parts
  rw [add_comm (tablePages m.word pt)]
  exact add_right_cancel parts

end Reads

/-- In every run, `walk` and `walkaddr` give what the map says, an operation that the map has a
meaning for does not panic, and once nothing is mapped `freewalk` gives the page-table pages back,
each once. -/
theorem page_table_refines_map {m m₀ : Mem} {held : Multiset Addr} (start : Holds k m held)
    (create : uvmcreate m = .ok (some pt, m₀))
    (run : Reach (step k pt) Allowed ⟨m₀, fun _ => none, held⟩ s) :
    (∀ v, s.map v ≠ none → v < npages) ∧
    (∀ va, va < maxva →
      (∃ r, walk pt va false s.mem = .ok (r, s.mem) ∧
        (r.bind fun p => mapping (s.mem.word p.1 p.2)) = s.map (va.toNat / 4096)) ∧
      walkaddr pt va s.mem = .ok (s.map.user (va.toNat / 4096), s.mem)) ∧
    (∀ op, Allowed s op → Proper s.map op → ∃ s', step k pt op s = some s') ∧
    ((∀ v, s.map v = none) → ∀ depth, levels ≤ depth → ∃ m',
      freewalk k depth pt s.mem = .ok ((), m') ∧ m'.twice = false ∧ m'.freelist.Nodup ∧
      (m'.freelist : Multiset Addr) = tablePages s.mem.word pt + s.mem.freelist) := by
  have first : Stands k pt ⟨m₀, fun _ => none, held⟩ := by
    have spec := wp_uvmcreate (E := fun _ => False) (Q := fun r m' => ∀ pt, r = some pt →
      Stands k pt ⟨m', fun _ => none, held⟩) start nofun fun pt m' t _ pt' e => by
        cases e
        exact ⟨_, t, rfl⟩
    exact (wp_ok create).mp spec pt rfl
  have st : Stands k pt s := run.invariant first fun s op s' st allowed h => st.step allowed h
  obtain ⟨f, t, e⟩ := st
  refine ⟨fun v hv => t.bound v ?_,
    fun va h => ⟨⟨Radix.slot fmt s.mem.word (ix va) 2 pt, ?_, ?_⟩, ?_⟩, fun op allowed proper => ?_,
    fun empty depth deep => ?_⟩
  · rwa [e, Ne, Map.mapping_eq_none] at hv
  · rw [walk, if_neg (UInt64.not_le.mpr h)]
    exact walkLevels_false
  · rw [t.mapping_slot h, e]
  · rw [t.walkaddr h, e]
  · exact Stands.step_of_proper ⟨f, t, e⟩ allowed proper
  · have empty' : ∀ v, f v = none := fun v => by
      have := empty v
      rwa [e, Map.mapping_eq_none] at this
    obtain ⟨m', hrun, h', parts⟩ := t.freewalk empty' deep
    refine ⟨m', hrun, h'.once, ?_, parts⟩
    exact coe_nodup.mp (nodup_add.mp h'.nodup).1

/-- A kernel that leaves eight pages to the allocator. -/
def eightPages : Symbols where
  end_ := 0x87FF8000
  trampoline := 0x80007000
  aligned := by decide
  kernbase_le := by decide
  trampoline_lt := by decide
  end_le := by decide

/-- Its memory at the start, and with an empty page table. -/
def eightPages.mem : Mem := ⟨fun _ _ => 0, eightPages.pages, false⟩

def eightPages.created : Mem :=
  { (eightPages.mem.setPage 0x87FF8000 fun _ => 0x0505050505050505).setPage 0x87FF8000 fun _ => 0
    with freelist := eightPages.pages.tail }

theorem page_table_refines_map_two : ∃ s : Space,
    s.map 5 = none ∧ s.map (npages - 1) = some (0x80007000, 11) ∧
    ∃ r, walk 0x87FF8000 0x5000 false s.mem = .ok (r, s.mem) ∧
      (r.bind fun p => mapping (s.mem.word p.1 p.2)) = s.map 5 := by
  have start : Holds eightPages eightPages.mem 0 := ⟨add_zero _, rfl⟩
  obtain ⟨s, run, h⟩ := exists_reach (step eightPages 0x87FF8000) Allowed
    ⟨eightPages.created, fun _ => none, 0⟩
    [.kalloc, .mappages 0x5000 0x87FF9000 (pteR ||| pteU), .mappages trampolineVa 0x80007000
      (pteR ||| pteX), .uvmclear 0x5000, .uvmunmap 0x5000 1 true]
    (P := fun s : Space => s.map 5 = none ∧ s.map (npages - 1) = some (0x80007000, 11))
    (by decide +kernel)
  exact ⟨s, h.1, h.2, ((page_table_refines_map start rfl run).2.1 0x5000 (by decide)).1⟩

end Xv6.Vm
