import Xv6.Malloc.Alloc

/-! The heap stays sound whatever a program does with its blocks, as long as a header can count the
units that `sbrk` has added. -/

namespace Xv6.Malloc

open List

/-- The address of a region of memory that is above `base` and above all regions so far. -/
def Fresh (base : Nat) (s : State) (hp : Nat) : Prop :=
  base + headerSize ≤ hp ∧ ∀ r ∈ s.obtained, r.stop ≤ hp

/-- What the program and `sbrk` may do: `sbrk` answers with fresh regions, and only a request whose
units fit an `int` as bytes; frees of allocated blocks, and writes to them after their headers. -/
def Allowed (base : Nat) (s : State) : Label → Prop
  | .malloc _ nbytes answers => ∀ hp, answers.head?.join = some hp →
      (nunits nbytes).toNat * headerSize < 2 ^ 31 ∧ Fresh base s hp
  | .free _ ap => ∃ b ∈ s.allocated, ap = b.addr + headerSize
  | .write m => ∀ x, (∀ b ∈ s.allocated, x ≤ b.addr ∨ b.stop ≤ x) → m x = s.heap.mem x

/-- The memory obtained stays below 2³² units, which is what `s.size` can count. -/
def Bounded (s : State) : Label → Prop
  | .malloc _ nbytes answers => ∀ hp, answers.head?.join = some hp →
      total s.obtained + (coreUnits (nunits nbytes)).toNat < 2 ^ 32
  | _ => True

section Units

variable {nbytes n : UInt32}

theorem toNat_nunits : (nunits nbytes).toNat = (nbytes.toNat + 15) / 16 + 1 := by
  have := nbytes.toNat_lt
  have small : (nbytes.toNat + headerSize - 1) / headerSize + 1 < 2 ^ 32 := by
    simp only [headerSize]
    omega
  rw [nunits, UInt32.toNat_ofNat_of_lt' small]
  rfl

theorem nunits_pos : 0 < (nunits nbytes).toNat := by
  rw [toNat_nunits]
  omega

theorem le_nunits : nbytes.toNat + headerSize ≤ headerSize * (nunits nbytes).toNat := by
  rw [toNat_nunits]
  simp only [headerSize]
  omega

theorem sbrk_block (fits : n.toNat * headerSize < 2 ^ 31) (hp : Nat) :
    Sbrk.block ⟨sbrkArg (coreUnits n), some hp⟩ = some ⟨hp, (coreUnits n).toNat⟩ := by
  have fits' : (coreUnits n).toNat * 16 < 2 ^ 31 := by
    unfold coreUnits
    split
    · decide
    · exact fits
  have arg : sbrkArg (coreUnits n) = (coreUnits n).toNat * 16 :=
    Int.bmod_eq_of_le (by simp only [headerSize]; omega) (by simp only [headerSize]; omega)
  rw [Sbrk.block, arg]
  simp only [headerSize, Option.map_some, Option.some.injEq, Block.mk.injEq, true_and]
  omega

/-- More bytes than an `int` counts are one unit at most. -/
theorem sbrkArg_few (large : 2 ^ 31 ≤ n.toNat * headerSize) (le : n.toNat ≤ 2 ^ 28 + 1) :
    (sbrkArg n).toNat / headerSize ≤ 1 := by
  have arg : sbrkArg n = (n.toNat : Int) * 16 - 4294967296 := by
    unfold sbrkArg
    simp only [headerSize] at *
    refine (Int.bmod_eq_iff (by decide)).mpr ?_
    omega
  rw [arg]
  simp only [headerSize]
  omega

end Units

section Invariant

variable {base : Nat} {h : Heap} {nodes alloc alloc' got : List Block} {b c : Block}

theorem Sound.perm (s : Sound base h nodes alloc got) (perm : alloc.Perm alloc') :
    Sound base h nodes alloc' got where
  first := s.first
  ring := s.ring
  order := s.order
  freep := s.freep
  pos := s.pos
  allocPos c hc := s.allocPos c (perm.mem_iff.mpr hc)
  size c hc := s.size c (perm.mem_iff.mpr hc)
  cover x := by
    rw [← s.cover, hits_append, hits_append]
    exact congrArg _ (perm.map _).sum_eq.symm
  units := by
    rw [← s.units, total_append, total_append]
    exact congrArg _ (perm.map _).sum_eq.symm
  regions := s.regions
  above := s.above
  small := s.small

theorem hit_add_le (hb : b ∈ bs) (hc : c ∈ bs) (ne : b ≠ c) : b.hit x + c.hit x ≤ hits bs x := by
  induction bs with
  | nil => cases hb
  | cons d bs ih =>
    rw [hits_cons]
    rcases mem_cons.mp hb with rfl | hb'
    · have := hit_le_hits (x := x) ((mem_cons.mp hc).resolve_left ne.symm)
      omega
    · rcases mem_cons.mp hc with rfl | hc'
      · have := hit_le_hits (x := x) hb'
        omega
      · have := ih hb' hc'
        omega

theorem Sound.blocks_apart (s : Sound base h nodes alloc got) (hb : b ∈ nodes ++ alloc)
    (hc : c ∈ nodes ++ alloc) (ne : b ≠ c) (posB : 0 < b.units) (posC : 0 < c.units) :
    b.Apart c :=
  apart_of_hit (fun x => (hit_add_le hb hc ne).trans (s.once x)) posB posC

theorem Sound.write (s : Sound base h nodes alloc got)
    (same : ∀ x, (∀ b ∈ alloc, x ≤ b.addr ∨ b.stop ≤ x) → m x = h.mem x) :
    Sound base { h with mem := m } nodes alloc got := by
  have node : ∀ c ∈ nodes, m c.addr = h.mem c.addr := by
    refine fun c hc => same _ fun b hb => ?_
    have := c.addr_le_stop
    rcases s.apart hc hb with le | le
    · exact .inl (by omega)
    · exact .inr le
  have head : ∀ c ∈ alloc, m c.addr = h.mem c.addr := by
    refine fun c hc => same _ fun b hb => ?_
    by_cases eq : b = c
    · exact .inl (by rw [eq])
    · have := c.addr_le_stop
      rcases s.blocks_apart (mem_append_right _ hb) (mem_append_right _ hc) eq
        (s.allocPos b hb) (s.allocPos c hc) with le | le
      · exact .inr le
      · exact .inl (by omega)
  refine ⟨s.first, ring_frame s.ring node, s.order, s.freep, s.pos, s.allocPos, fun c hc => ?_,
    s.cover, s.units, s.regions, s.above, s.small⟩
  show (m c.addr).size.toNat = c.units
  rw [head c hc]
  exact s.size c hc

theorem Sound.aligned (s : Sound base h nodes alloc got)
    (regions : ∀ r ∈ got, headerSize ∣ r.addr) (hb : b ∈ nodes ++ alloc) (pos : 0 < b.units) :
    headerSize ∣ b.addr := by
  induction hx : b.addr using Nat.strong_induction_on generalizing b with
  | _ x ih =>
    subst hx
    have covered : hits got b.addr ≠ 0 := by
      rw [← s.cover]
      exact hits_ne_zero.mpr ⟨b, hb, contains_addr pos⟩
    obtain ⟨r, hr, low, high⟩ := hits_ne_zero.mp covered
    rcases Nat.eq_or_lt_of_le low with start | inside
    · rw [← start]
      exact regions r hr
    · -- the block before it ends where it starts
      have before : hits (nodes ++ alloc) (b.addr - 1) ≠ 0 := by
        rw [s.cover]
        exact hits_ne_zero.mpr ⟨r, hr, by omega, by omega⟩
      obtain ⟨c, hc, lowC, highC⟩ := hits_ne_zero.mp before
      have posC : 0 < c.units := by
        by_contra zero
        simp only [Block.stop] at highC
        rw [Nat.eq_zero_of_not_pos zero] at highC
        omega
      have ne : c ≠ b := by
        rintro rfl
        omega
      have stop : c.stop = b.addr := by
        have := Block.addr_lt_stop pos
        rcases s.blocks_apart hc hb ne posC pos with le | le <;> omega
      rw [← stop]
      exact (ih c.addr (by omega) hc posC rfl).add (Dvd.intro _ rfl)

/-- Before the first `malloc` there is nothing, and from then on the heap is sound. -/
def Inv (base : Nat) (s : State) : Prop :=
  s.heap.freep = 0 ∧ s.allocated = [] ∧ s.obtained = [] ∨
    ∃ nodes, Sound base s.heap nodes s.allocated s.obtained

variable {s s' : State} {nbytes : UInt32} {answers : List (Option Nat)}

theorem Inv.setup (inv : Inv base s) (static : base ≠ 0) :
    ∃ nodes, Sound base (setup base s.heap) nodes s.allocated s.obtained := by
  unfold Malloc.setup
  rcases inv with ⟨zero, none, nothing⟩ | ⟨nodes, sound⟩
  · rw [if_pos zero, none, nothing]
    refine ⟨[⟨base, 0⟩], rfl, ?_, pairwise_singleton .., ⟨_, mem_singleton_self _, rfl⟩,
      ?_, nofun, nofun, fun x => ?_, rfl, .nil, nofun, by decide⟩
    · refine isChain_pair.mpr ⟨?_, ?_⟩ <;>
        simp only [Function.update_self]
      rfl
    · intro b hb ne
      rw [mem_singleton.mp hb] at ne
      exact absurd rfl ne
    · simp
  · rw [if_neg (sound.freep_ne_zero static)]
    exact ⟨nodes, sound⟩

theorem Inv.malloc (inv : Inv base s) (static : base ≠ 0)
    (allowed : ∀ hp, answers.head?.join = some hp → Fresh base s hp)
    (bounded : ∀ hp, answers.head?.join = some hp →
      total s.obtained + (coreUnits (nunits nbytes)).toNat < 2 ^ 32) :
    ∃ enough h p, (∀ fuel, malloc base (fuel + enough) s.heap nbytes answers = some (h, p)) ∧
      Served base (nunits nbytes) answers.head?.join s.heap h s.allocated s.obtained p := by
  obtain ⟨nodes, sound⟩ := inv.setup static
  obtain ⟨enough, h, p, ran, served⟩ := sound.mallocLoop static nunits_pos answers
    fun hp answer => ⟨(allowed hp answer).1, (allowed hp answer).2, bounded hp answer⟩
  have calls : (Malloc.setup base s.heap).sbrks = s.heap.sbrks := by
    unfold Malloc.setup
    split <;> rfl
  refine ⟨enough, h, p, ran, ?_⟩
  cases served with
  | failed nodes answer zero sound same =>
    exact .failed nodes answer zero sound (by rw [same, calls])
  | found nodes y ret units sound same => exact .found nodes y ret units sound (by rw [same, calls])
  | grown nodes y hp answer ret units top sound same =>
    exact .grown nodes y hp answer ret units top sound (by rw [same, calls])

theorem Served.inv
    (fits : ∀ hp, answer = some hp → (nunits nbytes).toNat * headerSize < 2 ^ 31)
    (served : Served base (nunits nbytes) answer s.heap h s.allocated s.obtained p) :
    Inv base (if p = 0 then { s with heap := h }
      else ⟨h, ⟨p - headerSize, (nunits nbytes).toNat⟩ :: s.allocated⟩) := by
  have block {y : Block} (units : y.units = (nunits nbytes).toNat) :
      (⟨y.addr + headerSize - headerSize, (nunits nbytes).toNat⟩ : Block) = y := by
    rw [Nat.add_sub_cancel, ← units]
  cases served with
  | failed nodes _ zero sound calls =>
    rw [if_pos zero]
    refine .inr ⟨nodes, ?_⟩
    have same : State.obtained { s with heap := h } = s.obtained := by
      rw [State.obtained, calls, filterMap_append]
      exact append_nil _
    rwa [same]
  | found nodes y ret units sound calls =>
    rw [if_neg (by rw [ret]; simp), ret, block units]
    refine .inr ⟨nodes, ?_⟩
    rwa [State.obtained, calls]
  | grown nodes y hp answer ret units _ sound calls =>
    rw [if_neg (by rw [ret]; simp), ret, block units]
    refine .inr ⟨nodes, ?_⟩
    rwa [State.obtained, calls, filterMap_append,
      show [(⟨sbrkArg (coreUnits (nunits nbytes)), some hp⟩ : Sbrk)].filterMap Sbrk.block =
        [⟨hp, (coreUnits (nunits nbytes)).toNat⟩] by 
          rw [filterMap_cons, sbrk_block (fits hp answer)]
          rfl]

theorem Inv.free (inv : Inv base s) (hb : b ∈ s.allocated) :
    ∃ enough h nodes, (∀ fuel, free (fuel + enough) s.heap (b.addr + headerSize) = some h) ∧
      Sound base h nodes
        (s.allocated.filter fun c => c.addr + headerSize ≠ b.addr + headerSize) s.obtained ∧
      h.sbrks = s.heap.sbrks := by
  rcases inv with ⟨-, none, -⟩ | ⟨nodes, sound⟩
  · rw [none] at hb
    cases hb
  obtain ⟨l, r, split⟩ := append_of_mem hb
  have front : Sound base s.heap nodes (b :: (l ++ r)) s.obtained := by
    rw [split] at sound
    exact sound.perm perm_middle
  have others : s.allocated.filter (fun c => c.addr + headerSize ≠ b.addr + headerSize) =
      l ++ r := by
    have keep : ∀ c ∈ l ++ r, (decide (c.addr + headerSize ≠ b.addr + headerSize)) = true :=
      fun c hc => decide_eq_true fun eq => front.alloc_ne hc (Nat.add_right_cancel eq).symm
    rw [split, filter_append, filter_cons_of_neg (by simp), ← filter_append,
      filter_eq_self.mpr keep]
  obtain ⟨h, nodes', freed, sound', calls, -⟩ := front.free (le_refl nodes.length)
  refine ⟨nodes.length, h, nodes', fun fuel => ?_, ?_, calls⟩
  · rw [add_comm]
    exact free_mono fuel freed
  · rwa [others]

theorem Inv.step (inv : Inv base s) (static : base ≠ 0) (ok : Allowed base s l ∧ Bounded s l)
    (hs : step base l s = some s') : Inv base s' := by
  cases l with
  | malloc fuel nbytes answers =>
    obtain ⟨⟨h, p⟩, ran, rfl⟩ := Option.map_eq_some_iff.mp hs
    obtain ⟨enough, h', p', ran', served⟩ :=
      inv.malloc static (fun hp answer => (ok.1 hp answer).2) ok.2
    -- the result does not depend on the fuel
    have same : some (h, p) = some (h', p') := by
      rw [← mallocLoop_mono enough ran]
      exact ran' fuel
    cases same
    exact served.inv fun hp answer => (ok.1 hp answer).1
  | free fuel ap =>
    obtain ⟨b, hb, rfl⟩ := ok.1
    obtain ⟨h, ran, rfl⟩ := Option.map_eq_some_iff.mp hs
    obtain ⟨enough, h', nodes, ran', sound, calls⟩ := inv.free hb
    have same : some h = some h' := by
      rw [← free_mono enough ran]
      exact ran' fuel
    cases same
    refine .inr ⟨nodes, ?_⟩
    rwa [State.obtained, calls]
  | write m =>
    cases hs
    rcases inv with ⟨zero, none, nothing⟩ | ⟨nodes, sound⟩
    · exact .inl ⟨zero, none, nothing⟩
    · exact .inr ⟨nodes, sound.write ok.1⟩

theorem Inv.reach (static : base ≠ 0) (run : Transition.Reach (Malloc.step base)
    (fun s l => Allowed base s l ∧ Bounded s l) (boot m) s) : Inv base s :=
  run.invariant (I := Inv base) (.inl ⟨rfl, rfl, rfl⟩) fun _ _ _ inv ok => inv.step static ok

end Invariant

/-- The free list is a circle through `base` and `freep`, in address order from `base` on, whose
blocks are apart and do not touch. -/
structure FreeList (base : Nat) (h : Heap) (free : List Block) : Prop where
  circle : ClosedChain (Node h.mem) (⟨base, 0⟩ :: free)
  freep : ∃ b ∈ ⟨base, 0⟩ :: free, h.freep = b.addr
  order : (⟨base, 0⟩ :: free).Pairwise fun b c => b.stop < c.addr
  pos : ∀ b ∈ free, 0 < b.units

/-- The free and the allocated blocks are apart and together are the memory obtained; before the
first `malloc` there is none. -/
def Valid (base : Nat) (s : State) : Prop :=
  s.heap.freep = 0 ∧ s.allocated = [] ∧ s.obtained = [] ∨
    ∃ free, FreeList base s.heap free ∧ (free ++ s.allocated).Pairwise Block.Apart ∧
      ∀ x, (∃ b ∈ free ++ s.allocated, b.Contains x) ↔ ∃ r ∈ s.obtained, r.Contains x

theorem Inv.valid (inv : Inv base s) : Valid base s := by
  refine inv.imp_right fun ⟨nodes, sound⟩ => ?_
  obtain ⟨free, rfl⟩ := sound.nodes_eq
  have pos : ∀ b ∈ free, 0 < b.units := by
    intro b hb
    have lt : base + 0 < b.addr := (pairwise_cons.mp sound.order).1 b hb
    exact sound.pos b (mem_cons_of_mem _ hb) lt.ne'
  have hits' : ∀ x, hits (free ++ s.allocated) x = hits s.obtained x := by
    intro x
    rw [← sound.cover, cons_append, hits_cons, hit_zero, zero_add]
  refine ⟨free, ⟨sound.ring, sound.freep, sound.order, pos⟩, pairwise_apart (fun x => ?_) ?_, ?_⟩
  · rw [hits']
    exact hits_le_one sound.regions
  · intro b hb
    rcases mem_append.mp hb with hb | hb
    · exact pos b hb
    · exact sound.allocPos b hb
  · intro x
    rw [← hits_ne_zero, ← hits_ne_zero, hits']

/-- A block in a sound heap holds the bytes and lies in the memory obtained. -/
theorem Sound.serves {y : Block} (sound : Sound base h nodes (y :: alloc) got)
    (units : y.units = (nunits nbytes).toNat) :
    ((∀ r ∈ got, headerSize ∣ r.addr) → headerSize ∣ y.addr + headerSize) ∧
    ∀ x, y.addr + headerSize ≤ x → x < y.addr + headerSize + nbytes.toNat →
      ∃ r ∈ got, r.Contains x := by
  have mem : y ∈ nodes ++ y :: alloc := by simp
  refine ⟨fun regions => ?_, fun x low high => ?_⟩
  · have pos : 0 < y.units := by
      rw [units]
      exact nunits_pos
    exact (sound.aligned regions mem pos).add (dvd_refl _)
  · have room : nbytes.toNat + headerSize ≤ headerSize * (nunits nbytes).toNat := le_nunits
    rw [← hits_ne_zero, ← sound.cover, hits_ne_zero]
    refine ⟨y, mem, by omega, ?_⟩
    rw [Block.stop, units]
    omega

/-- The bytes of the result are memory obtained. -/
def Inside (nbytes : UInt32) (h : Heap) (p : Nat) : Prop :=
  ∀ x, p ≤ x → x < p + nbytes.toNat → ∃ r ∈ h.sbrks.filterMap Sbrk.block, r.Contains x

/-- `malloc` returns zero only if `sbrk` failed, and otherwise the address of at least `nbytes`
bytes of the memory obtained. -/
theorem Inv.serves (inv : Inv base s) (static : base ≠ 0)
    (allowed : Allowed base s (.malloc 0 nbytes answers))
    (bounded : Bounded s (.malloc 0 nbytes answers)) : ∃ enough h p,
      (∀ fuel, Malloc.malloc base (fuel + enough) s.heap nbytes answers = some (h, p)) ∧
      (p = 0 ∧ answers.head?.join = none ∧ (∃ arg, h.sbrks = s.heap.sbrks ++ [⟨arg, none⟩]) ∨
        p ≠ 0 ∧
        ((∀ r ∈ h.sbrks.filterMap Sbrk.block, headerSize ∣ r.addr) → headerSize ∣ p) ∧
        Inside nbytes h p) := by
  obtain ⟨enough, h, p, ran, served⟩ :=
    inv.malloc static (fun hp answer => (allowed hp answer).2) bounded
  refine ⟨enough, h, p, ran, ?_⟩
  unfold Inside
  cases served with
  | failed nodes answer zero sound calls => exact .inl ⟨zero, answer, _, calls⟩
  | found nodes y ret units sound calls =>
    rw [ret]
    rw [State.obtained, ← calls] at sound
    exact .inr ⟨by simp, sound.serves units⟩
  | grown nodes y hp answer ret units _ sound calls =>
    rw [ret, calls, filterMap_append, filterMap_cons,
      sbrk_block (allowed hp answer).1]
    exact .inr ⟨by simp, sound.serves units⟩

/-- Whatever a program allocates, frees and writes to its blocks, the heap is valid, and `malloc`
and `free` return. `malloc` returns zero only if `sbrk` failed, and otherwise at least `nbytes`
bytes of the memory obtained, aligned as the regions are. -/
theorem heap_sound (base : Nat) (static : base ≠ 0) (m : Nat → Header) (s : State)
    (run : Transition.Reach (step base) (fun s l => Allowed base s l ∧ Bounded s l) (boot m) s) :
    Valid base s ∧
    (∀ nbytes answers, Allowed base s (.malloc 0 nbytes answers) →
      Bounded s (.malloc 0 nbytes answers) →
      ∃ enough h p, (∀ fuel, malloc base (fuel + enough) s.heap nbytes answers = some (h, p)) ∧
        (p = 0 ∧ answers.head?.join = none ∧ (∃ arg, h.sbrks = s.heap.sbrks ++ [⟨arg, none⟩]) ∨
          p ≠ 0 ∧
          ((∀ r ∈ h.sbrks.filterMap Sbrk.block, headerSize ∣ r.addr) → headerSize ∣ p) ∧
          Inside nbytes h p)) ∧
    ∀ b ∈ s.allocated, ∃ enough h, ∀ fuel,
      free (fuel + enough) s.heap (b.addr + headerSize) = some h := by
  have inv := Inv.reach static run
  refine ⟨inv.valid, fun nbytes answers => inv.serves static, fun b hb => ?_⟩
  obtain ⟨enough, h, -, ran, -⟩ := inv.free hb
  exact ⟨enough, h, ran⟩

/-- The units that `morecore` has stored are those that its `sbrk` has added. -/
def Stored (s : State) (nbytes : UInt32) (h : Heap) : Prop :=
  ∀ arg hp, h.sbrks = s.heap.sbrks ++ [⟨arg, some hp⟩] →
    Sbrk.block ⟨arg, some hp⟩ = some ⟨hp, (coreUnits (nunits nbytes)).toNat⟩

/-- The block that a request of too many units gets begins where the memory obtained ends. -/
theorem Served.outside (large : 2 ^ 31 ≤ (nunits nbytes).toNat * headerSize) {hp : Nat}
    (fresh : ∀ r ∈ s.obtained, r.stop ≤ hp) {y : Block} (units : y.units = (nunits nbytes).toNat)
    (top : hp + headerSize * (coreUnits (nunits nbytes)).toNat ≤ y.stop)
    (calls : h.sbrks = s.heap.sbrks ++ [⟨sbrkArg (coreUnits (nunits nbytes)), some hp⟩]) :
    ¬Inside nbytes h (y.addr + headerSize) ∧ ¬Stored s nbytes h := by
  have same : coreUnits (nunits nbytes) = nunits nbytes := if_neg fun small => by
    rw [UInt32.lt_iff_toNat_lt] at small
    have : (4096 : UInt32).toNat = 4096 := rfl
    simp only [headerSize] at large
    omega
  have number := @toNat_nunits nbytes
  have bound := nbytes.toNat_lt
  rw [same] at calls top
  have few := sbrkArg_few large (by omega)
  simp only [headerSize, Block.stop, units] at *
  refine ⟨fun inside => ?_, fun stored => ?_⟩
  · obtain ⟨r, hr, low, high⟩ := inside _ le_rfl (by omega)
    rw [calls, filterMap_append, mem_append] at hr
    rcases hr with hr | hr
    · have := fresh r hr
      simp only [Block.stop, headerSize] at high
      omega
    · cases mem_singleton.mp hr
      simp only [Block.stop, headerSize] at high
      omega
  · have eq := congrArg Block.units (Option.some.inj (stored _ hp calls))
    rw [same] at eq
    simp only [headerSize] at eq
    omega

/-- The bytes of a request whose 134217727 units just fit an `int`. -/
def hugeBytes : UInt32 := 2147483616

/-- Where the regions of such requests stand, one after the other. -/
def hugeAt (i : Nat) : Nat := 4096 + i * 2147483632

def hugeBlock (i : Nat) : Block := ⟨hugeAt i, 134217727⟩

/-- Some such requests, and the frees of their blocks. -/
def hugeRun (k : Nat) : List Label :=
  (List.range k).map (fun i => .malloc 2 hugeBytes [some (hugeAt i)]) ++
    (List.range k).map fun i => .free 2 (hugeAt i + headerSize)

/-- The conditions of a step without a write, computed. -/
def allowedTest (s : State) : Label → Bool
  | .malloc _ nbytes answers => answers.head?.join.all fun hp =>
      (nunits nbytes).toNat * headerSize < 2 ^ 31 && (16 + headerSize ≤ hp &&
        s.obtained.all fun r => r.stop ≤ hp)
  | .free _ ap => s.allocated.any fun b => ap = b.addr + headerSize
  | .write _ => false

def boundedTest (s : State) : Label → Bool
  | .malloc _ nbytes answers => answers.head?.join.all fun _ =>
      total s.obtained + (coreUnits (nunits nbytes)).toNat < 2 ^ 32
  | _ => true

theorem allowed_of_test (h : allowedTest s l = true) : Allowed 16 s l := by
  cases l with
  | malloc fuel nbytes answers => simpa [allowedTest, Allowed, Fresh, Option.all_eq_true] using h
  | free fuel ap => simpa [allowedTest, Allowed] using h
  | write m => cases h

theorem bounded_of_test (h : boundedTest s l = true) : Bounded s l := by
  cases l with
  | malloc fuel nbytes answers => simpa [boundedTest, Bounded, Option.all_eq_true] using h
  | free | write => trivial

theorem exists_huge {P : State → Prop} [DecidablePred P] (ls : List Label)
    (run : (Transition.exec (step 16) (fun s l => allowedTest s l && boundedTest s l) ls
      (boot fun _ => ⟨0, 0⟩)).any (fun s => decide (P s)) = true) :
    ∃ s, Transition.Reach (step 16) (fun s l => Allowed 16 s l ∧ Bounded s l)
      (boot fun _ => ⟨0, 0⟩) s ∧ P s := by
  refine Transition.exists_reach_of_exec (fun s l ok => ?_) ls run
  obtain ⟨allowed, bounded⟩ := Bool.and_eq_true_iff.mp ok
  exact ⟨allowed_of_test allowed, bounded_of_test bounded⟩

/-- Three requests, of which the first has been freed. -/
theorem heap_sound_huge : ∃ s, Transition.Reach (step 16)
      (fun s l => Allowed 16 s l ∧ Bounded s l) (boot fun _ => ⟨0, 0⟩) s ∧
    s.allocated = [hugeBlock 2, hugeBlock 1] ∧ Valid 16 s := by
  obtain ⟨s, run, blocks⟩ := exists_huge (P := fun s => s.allocated = [hugeBlock 2, hugeBlock 1])
    ((hugeRun 3).take 4) (by decide +kernel)
  exact ⟨s, run, blocks, (heap_sound 16 (by decide) _ s run).1⟩

/-- After 33 requests of almost 2 GiB and their frees, the one free block has more units than
`s.size` can count. -/
theorem size_overflows : ¬∀ (base : Nat) (m : Nat → Header) (s : State), base ≠ 0 →
    Transition.Reach (step base) (Allowed base) (boot m) s → Valid base s := by
  intro claim
  obtain ⟨s, run, freep, none, first, second, obtained⟩ :=
    Transition.exists_reach_of_exec (P := fun s : State => s.heap.freep ≠ 0 ∧ s.allocated = [] ∧
        s.heap.mem 16 = ⟨4096, 0⟩ ∧ s.heap.mem 4096 = ⟨16, 134217695⟩ ∧ hugeBlock 0 ∈ s.obtained)
      (fun _ _ => allowed_of_test) (hugeRun 33)
      (show (Transition.exec (step 16) allowedTest _ (boot fun _ => ⟨0, 0⟩)).any _ = true by
        decide +kernel)
  rcases claim 16 _ s (by decide) run with ⟨zero, -⟩ | ⟨free, list, -, cover⟩
  · exact freep zero
  -- the list is the block at 4096 alone, with what is left of the units
  obtain ⟨b, rfl, size⟩ : ∃ b : Block, free = [b] ∧ b.addr = 4096 ∧ b.units = 134217695 := by
    have circle := list.circle
    cases free with
    | nil =>
      have node := (isChain_pair.mp circle).1
      rw [first] at node
      cases node
    | cons b t =>
      obtain ⟨toB, rest⟩ := isChain_cons_cons.mp circle
      have addr : b.addr = 4096 := by
        have node := toB.1
        rw [first] at node
        exact node.symm
      have units : ∀ c, Node s.heap.mem b c → b.units = 134217695 ∧ c.addr = 16 := by
        intro c node
        rw [Node, addr, second] at node
        exact ⟨node.2.symm, node.1.symm⟩
      cases t with
      | nil => exact ⟨b, rfl, addr, (units _ (isChain_pair.mp rest)).1⟩
      | cons c t =>
        have low := (units c (isChain_cons_cons.mp rest).1).2
        have up : 16 + headerSize * 0 < c.addr :=
          (pairwise_cons.mp list.order).1 c (by simp)
        omega
  have lost := (cover (4096 + 16 * 134217695)).mpr ⟨hugeBlock 0, obtained, ?_⟩
  · obtain ⟨c, hc, low, high⟩ := lost
    rw [none, append_nil, mem_singleton] at hc
    rw [hc, Block.stop, size.1, size.2] at high
    exact absurd high (lt_irrefl _)
  · simp only [Block.Contains, Block.stop, hugeBlock, hugeAt, headerSize]
    omega

end Xv6.Malloc
