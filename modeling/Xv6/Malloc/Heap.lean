import Xv6.Malloc.Blocks

/-! The invariant of the allocator: the free list is a circle in address order, and its blocks and
the allocated ones cover the memory from `sbrk`. -/

namespace Xv6.Malloc

open Function List

def Node (m : Nat → Header) (b c : Block) : Prop :=
  (m b.addr).ptr = c.addr ∧ (m b.addr).size.toNat = b.units

/-- The free list is `nodes`, which starts with `base`; `alloc` are the other blocks and `got` is
the memory obtained. -/
structure Sound (base : Nat) (h : Heap) (nodes alloc got : List Block) : Prop where
  first : nodes.head? = some ⟨base, 0⟩
  ring : ClosedChain (Node h.mem) nodes
  order : nodes.Pairwise fun b c => b.stop < c.addr
  freep : ∃ b ∈ nodes, h.freep = b.addr
  pos : ∀ b ∈ nodes, b.addr ≠ base → 0 < b.units
  allocPos : ∀ b ∈ alloc, 0 < b.units
  size : ∀ b ∈ alloc, (h.mem b.addr).size.toNat = b.units
  cover : ∀ x, hits (nodes ++ alloc) x = hits got x
  units : total (nodes ++ alloc) = total got
  regions : got.Pairwise fun r r' => r.stop ≤ r'.addr
  above : ∀ r ∈ got, base + headerSize ≤ r.addr
  small : total got < 2 ^ 32

theorem Block.addr_le_stop (b : Block) : b.addr ≤ b.stop := Nat.le_add_right _ _

theorem Block.addr_lt_stop {b : Block} (pos : 0 < b.units) : b.addr < b.stop := by
  simp only [Block.stop, headerSize]
  omega

theorem plus_eq {b : Block} (addr : a = b.addr) (size : n.toNat = b.units) : plus a n = b.stop := by
  rw [plus, addr, size, Block.stop]

section Facts

variable {base : Nat} {h : Heap} {nodes alloc got : List Block} {b c : Block}

namespace Sound

section

variable (s : Sound base h nodes alloc got)

include s

theorem nodes_eq : ∃ free, nodes = ⟨base, 0⟩ :: free := by
  cases nodes with
  | nil => cases s.first
  | cons b free => exact ⟨free, by rw [Option.some.inj s.first]⟩

theorem once (x : Nat) : hits (nodes ++ alloc) x ≤ 1 := by
  rw [s.cover]
  exact hits_le_one s.regions

theorem mem_nodes (hb : b ∈ nodes) :
    b = ⟨base, 0⟩ ∨ base < b.addr ∧ 0 < b.units := by
  obtain ⟨free, rfl⟩ := s.nodes_eq
  rcases mem_cons.mp hb with rfl | hb'
  · exact .inl rfl
  · have lt : base + 0 < b.addr := (pairwise_cons.mp s.order).1 b hb'
    exact .inr ⟨lt, s.pos b hb lt.ne'⟩

theorem base_lt (mem : b ∈ nodes ++ alloc) (pos : 0 < b.units) : base + headerSize ≤ b.addr := by
  have covered : hits got b.addr ≠ 0 := by
    rw [← s.cover]
    exact hits_ne_zero.mpr ⟨b, mem, contains_addr pos⟩
  obtain ⟨r, hr, low, -⟩ := hits_ne_zero.mp covered
  exact (s.above r hr).trans low

theorem alloc_base_lt (hb : b ∈ alloc) :
    base + headerSize ≤ b.addr := s.base_lt (mem_append_right _ hb) (s.allocPos b hb)

theorem apart (hb : b ∈ nodes) (hc : c ∈ alloc) :
    b.Apart c := by
  rcases s.mem_nodes hb with rfl | hb'
  · have := s.alloc_base_lt hc
    left
    simp only [Block.stop, headerSize] at this ⊢
    omega
  · refine apart_of_hit (fun x => ?_) hb'.2 (s.allocPos c hc)
    have hb := hit_le_hits (x := x) hb
    have hc := hit_le_hits (x := x) hc
    have := s.once x
    rw [hits_append] at this
    omega

theorem node_ne (hb : b ∈ nodes) (hc : c ∈ alloc) :
    b.addr ≠ c.addr := by
  intro eq
  have above := s.alloc_base_lt hc
  have pos := Block.addr_lt_stop (s.allocPos c hc)
  rcases s.mem_nodes hb with rfl | hb'
  · simp only [headerSize] at above eq
    omega
  · have pos' := Block.addr_lt_stop hb'.2
    rcases s.apart hb hc with le | le <;> omega

end

theorem alloc_ne (s : Sound base h nodes (b :: alloc) got) (hc : c ∈ alloc) :
    b.addr ≠ c.addr := by
  have hb : b ∈ b :: alloc := mem_cons_self ..
  have posB := s.allocPos b hb
  have posC := s.allocPos c (mem_cons_of_mem b hc)
  have away : b.Apart c := by
    refine apart_of_hit (fun x => ?_) posB posC
    have hc := hit_le_hits (x := x) hc
    have := s.once x
    rw [hits_append, hits_cons] at this
    omega
  have := Block.addr_lt_stop posB
  have := Block.addr_lt_stop posC
  rcases away with le | le <;> omega

theorem addr_lt (s : Sound base h nodes alloc got) (split : nodes = l ++ b :: r)
    (hc : c ∈ r) : b.stop < c.addr := by
  have order := s.order
  rw [split] at order
  exact (pairwise_cons.mp (pairwise_append.mp order).2.1).1 c hc

theorem lt_addr (s : Sound base h nodes alloc got) (split : nodes = l ++ b :: r)
    (hc : c ∈ l) : c.stop < b.addr := by
  have order := s.order
  rw [split] at order
  exact (pairwise_append.mp order).2.2 c hc b (mem_cons_self ..)

/-- The node before an allocated block. -/
theorem split_at (s : Sound base h nodes alloc got) (hb : b ∈ alloc) :
    ∃ l p r, nodes = l ++ p :: r ∧ p.stop ≤ b.addr ∧ ∀ c ∈ r, b.stop ≤ c.addr := by
  have each : ∀ c ∈ nodes, c.stop ≤ b.addr ∨ b.stop ≤ c.addr := fun c hc => s.apart hc hb
  have low : ∀ c ∈ nodes.head?, c.stop ≤ b.addr := by
    intro c hc
    rw [s.first] at hc
    cases hc
    have := s.alloc_base_lt hb
    simp only [Block.stop, headerSize] at this ⊢
    omega
  have order := s.order
  have some_ : nodes ≠ [] := by
    obtain ⟨free, rfl⟩ := s.nodes_eq
    exact cons_ne_nil _ _
  clear s
  induction nodes with
  | nil => exact absurd rfl some_
  | cons z t ih =>
    cases t with
    | nil => exact ⟨[], z, [], rfl, low z rfl, (by intros; contradiction)⟩
    | cons y t =>
      obtain ⟨first, rest⟩ := pairwise_cons.mp order
      rcases each y (mem_cons_of_mem _ (mem_cons_self ..)) with le | le
      · obtain ⟨l, p, r, split, below, after⟩ := ih (fun c hc => each c (mem_cons_of_mem _ hc))
          (fun c hc => by cases hc; exact le) rest (cons_ne_nil _ _)
        exact ⟨z :: l, p, r, by rw [split]; rfl, below, after⟩
      · refine ⟨[], z, y :: t, rfl, low z rfl, fun c hc => ?_⟩
        rcases mem_cons.mp hc with rfl | hc
        · exact le
        · have later := (pairwise_cons.mp rest).1 c hc
          have := y.addr_le_stop
          omega

end Sound

end Facts

section Walk

variable {m : Nat → Header} {bp : Nat} {p : Block}

def Stops (m : Nat → Header) (bp a : Nat) : Prop :=
  bp > a ∧ bp < (m a).ptr ∨ a ≥ (m a).ptr ∧ (bp > a ∨ bp < (m a).ptr)

theorem freeLoop_stop (stop : Stops m bp a) (fuel : Nat) : freeLoop m bp (fuel + 1) a = some a := by
  unfold freeLoop
  by_cases inside : bp > a ∧ bp < (m a).ptr
  · rw [if_pos inside]
  · rw [if_neg inside, if_pos (stop.resolve_left inside)]

theorem freeLoop_go (go : ¬Stops m bp a) (fuel : Nat) :
    freeLoop m bp (fuel + 1) a = freeLoop m bp fuel (m a).ptr := by
  conv_lhs => unfold freeLoop
  rw [if_neg fun inside => go (.inl inside), if_neg fun wrap => go (.inr wrap)]

theorem freeLoop_walk (stop : Stops m bp p.addr) : ∀ (u : List Block) {a fuel : Nat},
    (u ++ [p]).IsChain (Node m) → (∀ c ∈ u, ¬Stops m bp c.addr) →
    (∀ c ∈ (u ++ [p]).head?, c.addr = a) → u.length < fuel →
    freeLoop m bp fuel a = some p.addr
  | _, _, 0, _, _, _, enough => absurd enough (Nat.not_lt_zero _)
  | [], a, fuel + 1, _, _, start, _ => by
    obtain rfl : p.addr = a := start p rfl
    exact freeLoop_stop stop fuel
  | c :: u, a, fuel + 1, chain, go, start, enough => by
    obtain rfl : c.addr = a := start c rfl
    obtain ⟨next, rest⟩ := isChain_cons.mp chain
    rw [freeLoop_go (go c (mem_cons_self ..))]
    exact freeLoop_walk stop u rest (fun d hd => go d (mem_cons_of_mem _ hd))
      (fun d hd => (next d hd).1.symm) (Nat.lt_of_succ_lt_succ enough)

end Walk

section Find

variable {base : Nat} {h : Heap} {nodes alloc got l r : List Block} {b p : Block}

namespace Sound

section

variable (s : Sound base h nodes alloc got)

include s

theorem next (split : nodes = l ++ p :: r) :
    ∀ c ∈ (r ++ l ++ [p]).head?, (h.mem p.addr).ptr = c.addr := by
  have ring := s.ring
  rw [split, ClosedChain.around_iff, isChain_cons] at ring
  exact fun c hc => (ring.1 c hc).1

theorem next_last (split : nodes = l ++ [p]) :
    (h.mem p.addr).ptr = base := by
  refine s.next split ⟨base, 0⟩ ?_
  have first := s.first
  rwa [split] at first

/-- The loop of `free` stops at the node before the block, and nowhere else. -/
theorem stops (hb : b ∈ alloc) (split : nodes = l ++ p :: r) (below : p.stop ≤ b.addr)
    (after : ∀ c ∈ r, b.stop ≤ c.addr) :
    Stops h.mem b.addr p.addr ∧ ∀ c ∈ l ++ r, ¬Stops h.mem b.addr c.addr := by
  have pos := Block.addr_lt_stop (s.allocPos b hb)
  have high := s.alloc_base_lt hb
  refine ⟨?_, fun c hc => ?_⟩
  · have lower : p.addr < b.addr := by
      have ne := s.node_ne (b := p) (by rw [split]; simp) hb
      have := p.addr_le_stop
      omega
    cases r with
    | nil =>
      rw [Stops, s.next_last split]
      have : base ≤ p.addr := by
        rcases s.mem_nodes (b := p) (by rw [split]; simp) with rfl | hp
        · exact le_rfl
        · exact hp.1.le
      exact .inr ⟨this, .inl lower⟩
    | cons q r =>
      rw [Stops, s.next split q rfl]
      have := after q (mem_cons_self ..)
      exact .inl ⟨lower, by omega⟩
  · rcases mem_append.mp hc with hc | hc
    · -- a node before that one points to a node that is not after it
      obtain ⟨l1, l2, rfl⟩ := append_of_mem hc
      have split' : nodes = l1 ++ c :: (l2 ++ p :: r) := by rw [split]; simp
      obtain ⟨d, hd, mem⟩ : ∃ d, d ∈ (l2 ++ p :: r).head? ∧ (d = p ∨ d ∈ l2) := by
        cases l2 with
        | nil => exact ⟨p, rfl, .inl rfl⟩
        | cons d l2 => exact ⟨d, rfl, .inr (mem_cons_self ..)⟩
      have next := s.next split' d (by
        rw [append_assoc, List.head?_append_of_ne_nil _ (by simp)]
        exact hd)
      have up := s.addr_lt split' (mem_of_mem_head? hd)
      have low : d.addr ≤ b.addr := by
        rcases mem with rfl | mem
        · exact le_trans d.addr_le_stop below
        · have := s.lt_addr (c := d) split (by simp [mem])
          have := d.addr_le_stop
          have := p.addr_le_stop
          omega
      have := c.addr_le_stop
      rw [Stops, next]
      omega
    · -- a node after the block points up, or back to `base`
      obtain ⟨r1, r2, rfl⟩ := append_of_mem hc
      have split' : nodes = (l ++ p :: r1) ++ c :: r2 := by rw [split]; simp
      have over' := after c hc
      cases r2 with
      | nil =>
        rw [Stops, s.next_last split']
        omega
      | cons d r2 =>
        have up := s.addr_lt split' (mem_cons_self ..)
        have := c.addr_le_stop
        rw [Stops, s.next split' d rfl]
        omega

theorem freeLoop_finds (hb : b ∈ alloc) (split : nodes = l ++ p :: r) (below : p.stop ≤ b.addr)
    (after : ∀ c ∈ r, b.stop ≤ c.addr) (enough : nodes.length ≤ fuel) :
    freeLoop h.mem b.addr fuel h.freep = some p.addr := by
  obtain ⟨stop, go⟩ := s.stops hb split below after
  obtain ⟨f, hf, start⟩ := s.freep
  have ring := s.ring
  rw [split] at hf ring enough
  rw [length_append, length_cons] at enough
  rcases mem_append.mp hf with hf | hf
  · obtain ⟨l1, l2, rfl⟩ := append_of_mem hf
    rw [show l1 ++ f :: l2 ++ p :: r = l1 ++ f :: (l2 ++ p :: r) by simp] at ring
    have chain := ClosedChain.around_iff.mp ring
    rw [show f :: ((l2 ++ p :: r) ++ l1 ++ [f]) = (f :: l2) ++ p :: (r ++ l1 ++ [f]) by simp,
      isChain_split] at chain
    refine freeLoop_walk stop (f :: l2) chain.1 (fun c hc => go c ?_) (fun c hc => ?_) ?_
    · simp only [mem_append, mem_cons] at hc ⊢
      tauto
    · cases hc
      exact start.symm
    · rw [length_append, length_cons] at enough
      rw [length_cons]
      omega
  · rcases mem_cons.mp hf with rfl | hf
    · refine freeLoop_walk stop [] (.singleton f) nofun (fun c hc => ?_) (by simp; omega)
      cases hc
      exact start.symm
    · obtain ⟨r1, r2, rfl⟩ := append_of_mem hf
      rw [show l ++ p :: (r1 ++ f :: r2) = (l ++ p :: r1) ++ f :: r2 by simp] at ring
      have chain := ClosedChain.around_iff.mp ring
      rw [show f :: (r2 ++ (l ++ p :: r1) ++ [f]) = (f :: (r2 ++ l)) ++ p :: (r1 ++ [f]) by simp,
        isChain_split] at chain
      refine freeLoop_walk stop (f :: (r2 ++ l)) chain.1 (fun c hc => go c ?_) (fun c hc => ?_) ?_
      · simp only [mem_append, mem_cons] at hc ⊢
        tauto
      · cases hc
        exact start.symm
      · simp only [length_append, length_cons] at enough ⊢
        omega

end

end Sound

end Find

section Join

variable {m : Nat → Header} {a v : Nat} {n : UInt32} {b p : Block} {l r t : List Block}

theorem setPtr_self : setPtr m a v a = { m a with ptr := v } := update_self ..

theorem setSize_self : setSize m a n a = { m a with size := n } := update_self ..

theorem setPtr_of_ne (h : x ≠ a) : setPtr m a v x = m x := update_of_ne h ..

theorem setSize_of_ne (h : x ≠ a) : setSize m a n x = m x := update_of_ne h ..

theorem toNat_add_of_lt {i j : UInt32} (h : i.toNat + j.toNat < 2 ^ 32) :
    (i + j).toNat = i.toNat + j.toNat := by
  rw [UInt32.toNat_add, Nat.mod_eq_of_lt h]

theorem chain_frame (chain : (t ++ [p]).IsChain (Node m))
    (same : ∀ c ∈ t, m' c.addr = m c.addr) : (t ++ [p]).IsChain (Node m') := by
  refine isChain_imp_mem chain fun c hc d node => ?_
  rwa [Node, same c hc]

theorem chain_last (chain : (t ++ [p]).IsChain (Node m)) (addr : p'.addr = p.addr) :
    (t ++ [p']).IsChain (Node m) := by
  induction t with
  | nil => exact .singleton _
  | cons c t ih =>
    obtain ⟨next, rest⟩ := isChain_cons.mp chain
    refine isChain_cons.mpr ⟨fun d hd => ?_, ih rest⟩
    cases t with
    | nil =>
      cases hd
      have node := next p rfl
      exact ⟨node.1.trans addr.symm, node.2⟩
    | cons e t => exact next d hd

/-- `b` before the nodes `r`, with the first of them joined to it if it follows at once. -/
structure JoinedNext (m m' : Nat → Header) (b b' : Block) (r r' : List Block) : Prop where
  addr : b'.addr = b.addr
  units : b.units ≤ b'.units
  sub : r' ⊆ r
  order : ∀ c ∈ r', b'.stop < c.addr
  pairwise : r'.Pairwise fun b c => b.stop < c.addr
  cover : ∀ x, b'.hit x + hits r' x = b.hit x + hits r x
  total : b'.units + total r' = b.units + total r
  frame : ∀ a, a ≠ b.addr → m' a = m a

theorem joinNext_spec (chain : (p :: (r ++ l ++ [p])).IsChain (Node m))
    (size : (m b.addr).size.toNat = b.units) (ne : ∀ c ∈ r ++ l ++ [p], c.addr ≠ b.addr)
    (low : ∀ c ∈ l ++ [p], c.addr < b.addr) (after : ∀ c ∈ r, b.stop ≤ c.addr)
    (order : r.Pairwise fun b c => b.stop < c.addr) (small : b.units + total r < 2 ^ 32) :
    ∃ b' r', JoinedNext m (joinNext m b.addr p.addr) b b' r r' ∧
      (b' :: (r' ++ l ++ [p])).IsChain (Node (joinNext m b.addr p.addr)) := by
  obtain ⟨next, rest⟩ := isChain_cons.mp chain
  have joins : plus b.addr (m b.addr).size = b.stop := plus_eq rfl size
  by_cases meet : b.stop = (m p.addr).ptr
  · -- the node after `p` cannot be one below `b`, so that it is the first of `r`
    cases r with
    | nil =>
      obtain ⟨d, hd⟩ : ∃ d, d ∈ (l ++ [p]).head? := by
        cases l <;> exact ⟨_, rfl⟩
      have toD := (next d hd).1
      have := low d (mem_of_mem_head? hd)
      have := b.addr_le_stop
      omega
    | cons q r =>
      have toQ : (m p.addr).ptr = q.addr := (next q rfl).1
      obtain ⟨nextQ, rest⟩ := isChain_cons.mp rest
      obtain ⟨afterQ, order⟩ := pairwise_cons.mp order
      have neQ : q.addr ≠ b.addr := ne q (by simp)
      have sizeQ : (m q.addr).size.toNat = q.units := by
        obtain ⟨d, hd⟩ : ∃ d, d ∈ (r ++ l ++ [p]).head? := by
          cases r <;> cases l <;> exact ⟨_, rfl⟩
        exact (nextQ d hd).2
      rw [total_cons] at small
      have m' : joinNext m b.addr p.addr = setPtr (setSize m b.addr
          ((m b.addr).size + (m q.addr).size)) b.addr (m q.addr).ptr := by
        rw [joinNext, if_pos (joins.trans meet), toQ]
        dsimp only
        rw [setSize_of_ne (ne p (by simp)), toQ, setSize_of_ne neQ]
      have frame : ∀ a, a ≠ b.addr → joinNext m b.addr p.addr a = m a := by
        intro a ha
        rw [m', setPtr_of_ne ha, setSize_of_ne ha]
      have stop : (⟨b.addr, b.units + q.units⟩ : Block).stop = q.stop := by
        rw [toQ] at meet
        simp only [Block.stop, headerSize] at meet ⊢
        omega
      refine ⟨⟨b.addr, b.units + q.units⟩, r, ⟨rfl, Nat.le_add_right _ _,
        subset_cons_self .., fun c hc => ?_, order, fun x => ?_, ?_, frame⟩, ?_⟩
      · rw [stop]
        exact afterQ c hc
      · have at_ : b.addr + headerSize * b.units = q.addr := meet.trans toQ
        rw [hits_cons, hit_add, at_, add_assoc]
      · rw [total_cons, add_assoc]
      · refine isChain_cons.mpr ⟨fun d hd => ⟨?_, ?_⟩, chain_frame rest fun c hc => ?_⟩
        · rw [m', setPtr_self]
          exact (nextQ d hd).1
        · rw [m', setPtr_self, setSize_self]
          rw [toNat_add_of_lt (by omega), size, sizeQ]
        · exact frame _ (ne c (by simp only [mem_append, mem_cons] at hc ⊢; tauto))
  · have m' : joinNext m b.addr p.addr = setPtr m b.addr (m p.addr).ptr := by
      rw [joinNext, if_neg fun eq => meet (joins.symm.trans eq)]
    have frame : ∀ a, a ≠ b.addr → joinNext m b.addr p.addr a = m a := by
      intro a ha
      rw [m', setPtr_of_ne ha]
    refine ⟨b, r, ⟨rfl, le_rfl, fun _ => id, fun c hc => ?_, order, fun _ => rfl, rfl, frame⟩, ?_⟩
    · cases r with
      | nil => cases hc
      | cons q r =>
        have toQ := (next q rfl).1
        have le := after q (mem_cons_self ..)
        rcases mem_cons.mp hc with rfl | hc
        · exact lt_of_le_of_ne le fun eq => meet (eq.trans toQ.symm)
        · have := (pairwise_cons.mp order).1 c hc
          have := q.addr_le_stop
          omega
    · refine isChain_cons.mpr ⟨fun d hd => ⟨?_, ?_⟩, chain_frame rest fun c hc => ?_⟩
      · rw [m', setPtr_self]
        exact (next d hd).1
      · rwa [m', setPtr_self]
      · exact frame _ (ne c (mem_append_left _ hc))

/-- `b` after the node `p`, or joined to it if it follows at once. -/
theorem joinPrev_spec (chain : (b :: (t ++ [p])).IsChain (Node m))
    (size : (m p.addr).size.toNat = p.units) (ne : ∀ c ∈ b :: t, c.addr ≠ p.addr)
    (below : p.stop ≤ b.addr) (small : p.units + b.units < 2 ^ 32) :
    (∀ a, a ≠ p.addr → joinPrev m b.addr p.addr a = m a) ∧
    (p.stop < b.addr ∧ ClosedChain (Node (joinPrev m b.addr p.addr)) (p :: b :: t) ∨
      p.stop = b.addr ∧
        ClosedChain (Node (joinPrev m b.addr p.addr)) (⟨p.addr, p.units + b.units⟩ :: t)) := by
  have joins : plus p.addr (m p.addr).size = p.stop := plus_eq rfl size
  obtain ⟨next, rest⟩ := isChain_cons.mp chain
  have neB : b.addr ≠ p.addr := ne b (mem_cons_self ..)
  by_cases meet : p.stop = b.addr
  · have m' : joinPrev m b.addr p.addr = setPtr (setSize m p.addr
        ((m p.addr).size + (m b.addr).size)) p.addr (m b.addr).ptr := by
      rw [joinPrev, if_pos (joins.trans meet)]
      dsimp only
      rw [setSize_of_ne neB]
    have frame : ∀ a, a ≠ p.addr → joinPrev m b.addr p.addr a = m a := by
      intro a ha
      rw [m', setPtr_of_ne ha, setSize_of_ne ha]
    have sizeB : (m b.addr).size.toNat = b.units := by
      obtain ⟨d, hd⟩ : ∃ d, d ∈ (t ++ [p]).head? := by
        cases t <;> exact ⟨_, rfl⟩
      exact (next d hd).2
    refine ⟨frame, .inr ⟨meet, ?_⟩⟩
    have tail : (t ++ [(⟨p.addr, p.units + b.units⟩ : Block)]).IsChain
        (Node (joinPrev m b.addr p.addr)) :=
      chain_last (chain_frame rest fun c hc => frame _ (ne c (mem_cons_of_mem _ hc))) rfl
    refine isChain_cons.mpr ⟨fun d hd => ⟨?_, ?_⟩, tail⟩
    · rw [m', setPtr_self]
      cases t with
      | nil =>
        cases hd
        exact (next p rfl).1
      | cons c t => exact (next d hd).1
    · rw [m', setPtr_self, setSize_self]
      rw [toNat_add_of_lt (by omega), size, sizeB]
  · have m' : joinPrev m b.addr p.addr = setPtr m p.addr b.addr := by
      rw [joinPrev, if_neg fun eq => meet (joins.symm.trans eq)]
    have frame : ∀ a, a ≠ p.addr → joinPrev m b.addr p.addr a = m a := by
      intro a ha
      rw [m', setPtr_of_ne ha]
    refine ⟨frame, .inl ⟨lt_of_le_of_ne below meet, ?_⟩⟩
    refine isChain_cons.mpr ⟨fun d hd => ?_, chain_frame chain fun c hc => frame _ (ne c hc)⟩
    cases hd
    refine ⟨?_, ?_⟩
    · rw [m', setPtr_self]
    · rwa [m', setPtr_self]

end Join

section Free

variable {base : Nat} {h : Heap} {nodes alloc got : List Block} {b : Block}

theorem Sound.free (s : Sound base h nodes (b :: alloc) got) (enough : nodes.length ≤ fuel) :
    ∃ h' nodes', free fuel h (b.addr + headerSize) = some h' ∧ Sound base h' nodes' alloc got ∧
      h'.sbrks = h.sbrks ∧ ∃ c ∈ nodes', b.units ≤ c.units ∧ b.stop ≤ c.stop ∧
        ∀ d ∈ nodes', d = c ∨ d ∈ nodes := by
  have hb : b ∈ b :: alloc := mem_cons_self ..
  obtain ⟨l, p, r, split, below, after⟩ := s.split_at hb
  have found := s.freeLoop_finds hb split below after enough
  have memP : p ∈ nodes := by rw [split]; simp
  have mem {c : Block} (hc : c ∈ r ++ l) : c ∈ nodes := by
    rw [split]
    simp only [mem_append, mem_cons] at hc ⊢
    tauto
  have neP : p.addr ≠ b.addr := s.node_ne memP hb
  have lowP : p.addr < b.addr := lt_of_le_of_ne (p.addr_le_stop.trans below) neP
  have order := s.order
  rw [split, pairwise_append, pairwise_cons] at order
  obtain ⟨orderL, ⟨afterP, orderR⟩, cross⟩ := order
  have sum := s.units
  have small := s.small
  rw [split] at sum
  simp only [total_append, total_cons] at sum
  have around := ClosedChain.around_iff.mp (split ▸ s.ring)
  have sizeP : (h.mem p.addr).size.toNat = p.units := by
    obtain ⟨d, hd⟩ : ∃ d, d ∈ (r ++ l ++ [p]).head? := by
      cases r <;> cases l <;> exact ⟨_, rfl⟩
    exact ((isChain_cons.mp around).1 d hd).2
  obtain ⟨b', r', joined, chain⟩ := joinNext_spec around (s.size b hb)
    (fun c hc => by
      rcases mem_append.mp hc with hc | hc
      · exact s.node_ne (mem hc) hb
      · rw [mem_singleton.mp hc]
        exact neP)
    (fun c hc => by
      rcases mem_append.mp hc with hc | hc
      · have := cross c hc p (mem_cons_self ..)
        have := c.addr_le_stop
        omega
      · rw [mem_singleton.mp hc]
        exact lowP)
    after orderR (by omega)
  have total' := joined.total
  have addr' := joined.addr
  obtain ⟨frame, rings⟩ := joinPrev_spec chain (by rwa [joined.frame _ neP])
    (fun c hc => by
      rcases mem_cons.mp hc with rfl | hc
      · rw [addr']
        exact neP.symm
      · rcases mem_append.mp hc with hc | hc
        · have := afterP c (joined.sub hc)
          have := p.addr_le_stop
          omega
        · have := cross c hc p (mem_cons_self ..)
          have := c.addr_le_stop
          omega)
    (by rwa [addr']) (by omega)
  -- the headers of the other blocks, and what does not depend on how the block was joined
  have sizes : ∀ c ∈ alloc, (joinPrev (joinNext h.mem b.addr p.addr) b'.addr p.addr
      c.addr).size.toNat = c.units := by
    intro c hc
    have hc' : c ∈ b :: alloc := mem_cons_of_mem _ hc
    rw [frame _ (s.node_ne memP hc').symm, joined.frame _ (s.alloc_ne hc).symm]
    exact s.size c hc'
  have crossR : ∀ a ∈ l, ∀ c ∈ r', a.stop < c.addr := fun a ha c hc =>
    cross a ha c (mem_cons_of_mem _ (joined.sub hc))
  have crossP : ∀ a ∈ l, a.stop < p.addr := fun a ha => cross a ha p (mem_cons_self ..)
  have ran : Malloc.free fuel h (b.addr + headerSize) = some
      { h with mem := joinPrev (joinNext h.mem b.addr p.addr) b'.addr p.addr, freep := p.addr } := by
    rw [Malloc.free, Nat.add_sub_cancel, found, addr']
    rfl
  have posOld : ∀ c ∈ r ++ l, c.addr ≠ base → 0 < c.units := fun c hc => s.pos c (mem hc)
  have posB : 0 < b'.units := lt_of_lt_of_le (s.allocPos b hb) joined.units
  have allocPos : ∀ c ∈ alloc, 0 < c.units := fun c hc => s.allocPos c (mem_cons_of_mem _ hc)
  have first := s.first
  rw [split] at first
  have cover := s.cover
  rw [split] at cover
  have stop' : b.stop ≤ b'.stop := by
    have := joined.units
    simp only [Block.stop, headerSize]
    omega
  rcases rings with ⟨gap, ring⟩ | ⟨meet, ring⟩
  · refine ⟨_, l ++ p :: b' :: r', ran, ?_, rfl, b', by simp, joined.units, stop', fun d hd => ?_⟩
    rotate_left
    · simp only [mem_append, mem_cons] at hd
      rcases hd with hd | rfl | hd | hd
      · exact .inr (mem (mem_append_right _ hd))
      · exact .inr memP
      · exact .inl hd
      · exact .inr (mem (mem_append_left _ (joined.sub hd)))
    refine ⟨?_, ?_, ?_, ⟨p, by simp, rfl⟩, ?_, allocPos, sizes, fun x => ?_, ?_, s.regions, s.above,
      small⟩
    · cases l <;> exact first
    · exact ClosedChain.rotate (l := p :: b' :: r') ring
    · rw [pairwise_append, pairwise_cons, pairwise_cons]
      refine ⟨orderL, ⟨fun c hc => ?_, joined.order, joined.pairwise⟩, fun a ha c hc => ?_⟩
      · rcases mem_cons.mp hc with rfl | hc
        · exact gap
        · exact afterP c (joined.sub hc)
      · rcases mem_cons.mp hc with rfl | hc
        · exact crossP a ha
        rcases mem_cons.mp hc with rfl | hc
        · have := crossP a ha
          have := p.addr_le_stop
          omega
        · exact crossR a ha c hc
    · intro c hc ne
      simp only [mem_append, mem_cons] at hc
      rcases hc with hc | rfl | rfl | hc
      · exact posOld c (mem_append_right _ hc) ne
      · exact s.pos c memP ne
      · exact posB
      · exact posOld c (mem_append_left _ (joined.sub hc)) ne
    · have := cover x
      have := joined.cover x
      simp only [hits_append, hits_cons] at *
      omega
    · simp only [total_append, total_cons]
      omega
  · -- `base` is not joined, since nothing starts where it ends
    have notBase : p ≠ ⟨base, 0⟩ := by
      rintro rfl
      have := s.alloc_base_lt hb
      simp only [Block.stop, headerSize] at meet this
      omega
    have stop : (⟨p.addr, p.units + b'.units⟩ : Block).stop = b'.stop := by
      simp only [Block.stop, headerSize] at meet ⊢
      omega
    refine ⟨_, l ++ ⟨p.addr, p.units + b'.units⟩ :: r', ran, ?_, rfl,
      ⟨p.addr, p.units + b'.units⟩, by simp, joined.units.trans (Nat.le_add_left _ _),
      stop ▸ stop', fun d hd => ?_⟩
    rotate_left
    · simp only [mem_append, mem_cons] at hd
      rcases hd with hd | hd | hd
      · exact .inr (mem (mem_append_right _ hd))
      · exact .inl hd
      · exact .inr (mem (mem_append_left _ (joined.sub hd)))
    refine ⟨?_, ?_, ?_, ⟨⟨p.addr, p.units + b'.units⟩, by simp, rfl⟩, ?_, allocPos, sizes,
      fun x => ?_, ?_, s.regions, s.above, small⟩
    · cases l with
      | nil => exact absurd (Option.some.inj first) notBase
      | cons z l => exact first
    · exact ClosedChain.rotate (l := ⟨p.addr, p.units + b'.units⟩ :: r') ring
    · rw [pairwise_append, pairwise_cons]
      refine ⟨orderL, ⟨fun c hc => ?_, joined.pairwise⟩, fun a ha c hc => ?_⟩
      · rw [stop]
        exact joined.order c hc
      · rcases mem_cons.mp hc with rfl | hc
        · exact crossP a ha
        · exact crossR a ha c hc
    · intro c hc ne
      simp only [mem_append, mem_cons] at hc
      rcases hc with hc | rfl | hc
      · exact posOld c (mem_append_right _ hc) ne
      · show 0 < p.units + b'.units
        omega
      · exact posOld c (mem_append_left _ (joined.sub hc)) ne
    · have at_ : p.addr + headerSize * p.units = b'.addr := meet
      have whole : (⟨p.addr, p.units + b'.units⟩ : Block).hit x = p.hit x + b'.hit x := by
        rw [hit_add, at_]
      have := cover x
      have := joined.cover x
      simp only [hits_append, hits_cons, whole] at *
      omega
    · simp only [total_append, total_cons]
      omega

end Free

end Xv6.Malloc
