import Xv6.Malloc.Heap

/-! `malloc` finds a block, gets more memory at most once, and keeps the invariant. -/

namespace Xv6.Malloc

open List UInt32 Option

section Fuel

theorem freeLoop_mono (k : Nat) : ∀ {fuel a : Nat}, freeLoop m bp fuel a = some v →
    freeLoop m bp (fuel + k) a = some v
  | 0, _, h => by cases h
  | fuel + 1, a, h => by
    rw [add_right_comm]
    unfold freeLoop at h ⊢
    split
    next inside => rwa [if_pos inside] at h
    next outside =>
      rw [if_neg outside] at h
      split
      next wrap => rwa [if_pos wrap] at h
      next straight =>
        rw [if_neg straight] at h
        exact freeLoop_mono k h

theorem free_mono (k : Nat) (ran : free fuel h ap = some h') : free (fuel + k) h ap = some h' := by
  obtain ⟨p, found, eq⟩ := map_eq_some_iff.mp ran
  rw [free, freeLoop_mono k found]
  exact congrArg some eq

theorem morecore_mono (k : Nat) (ran : morecore fuel h n answer = some r) :
    morecore (fuel + k) h n answer = some r := by
  cases answer with
  | none => exact ran
  | some hp =>
    obtain ⟨h', freed, eq⟩ := map_eq_some_iff.mp ran
    exact map_eq_some_iff.mpr ⟨h', free_mono k freed, eq⟩

theorem mallocLoop_mono (k : Nat) : ∀ {fuel : Nat} {h : Heap} {prevp p : Nat}
    {answers : List (Option Nat)}, mallocLoop n fuel h prevp p answers = some r →
    mallocLoop n (fuel + k) h prevp p answers = some r
  | 0, _, _, _, _, ran => by cases ran
  | fuel + 1, h, prevp, p, answers, ran => by
    rw [add_right_comm]
    unfold mallocLoop at ran ⊢
    split
    next fits => rwa [if_pos fits] at ran
    next small =>
      rw [if_neg small] at ran
      split
      next last =>
        rw [if_pos last] at ran
        obtain ⟨⟨h1, p1⟩, more, ran⟩ := bind_eq_some_iff.mp ran
        rw [morecore_mono k more, bind_some]
        dsimp only at ran ⊢
        split
        next failed => rwa [if_pos failed] at ran
        next ok =>
          rw [if_neg ok] at ran
          exact mallocLoop_mono k ran
      next other =>
        rw [if_neg other] at ran
        exact mallocLoop_mono k ran

end Fuel

section Take

theorem ring_frame (ring : ClosedChain (Node m) nodes)
    (same : ∀ c ∈ nodes, m' c.addr = m c.addr) : ClosedChain (Node m') nodes := by
  cases nodes with
  | nil => trivial
  | cons z t => exact chain_frame (t := z :: t) ring same

theorem Sound.sbrk (s : Sound base h nodes alloc got) (above : base + headerSize ≤ hp)
    (fresh : ∀ r ∈ got, r.stop ≤ hp) (pos : 0 < n.toNat) (small : total got + n.toNat < 2 ^ 32)
    (calls : List Sbrk) : Sound base { h with mem := setSize h.mem hp n, sbrks := calls } nodes
      (⟨hp, n.toNat⟩ :: alloc) (got ++ [⟨hp, n.toNat⟩]) := by
  have below : ∀ c ∈ nodes ++ alloc, c.addr ≠ hp := by
    intro c hc
    have old : 0 < c.units → c.addr < hp := by
      intro posC
      have covered : hits got c.addr ≠ 0 := by
        rw [← s.cover]
        exact hits_ne_zero.mpr ⟨c, hc, contains_addr posC⟩
      obtain ⟨r, hr, -, high⟩ := hits_ne_zero.mp covered
      exact lt_of_lt_of_le high (fresh r hr)
    simp only [headerSize] at above
    rcases mem_append.mp hc with hc | hc
    · rcases s.mem_nodes hc with rfl | hc'
      · show base ≠ hp
        omega
      · exact (old hc'.2).ne
    · exact (old (s.allocPos c hc)).ne
  refine ⟨s.first, ring_frame s.ring fun c hc => ?_, s.order, s.freep, s.pos, ?_, ?_, fun x => ?_,
    ?_, ?_, ?_, ?_⟩
  · exact setSize_of_ne (below c (mem_append_left _ hc))
  · intro c hc
    rcases mem_cons.mp hc with rfl | hc
    · exact pos
    · exact s.allocPos c hc
  · intro c hc
    rcases mem_cons.mp hc with rfl | hc
    · show (setSize h.mem hp n hp).size.toNat = n.toNat
      rw [setSize_self]
    · show (setSize h.mem hp n c.addr).size.toNat = c.units
      rw [setSize_of_ne (below c (mem_append_right _ hc))]
      exact s.size c hc
  · have := s.cover x
    simp only [hits_append, hits_cons, hits_nil] at *
    omega
  · have := s.units
    simp only [total_append, total_cons, total_nil] at *
    omega
  · rw [pairwise_append]
    refine ⟨s.regions, pairwise_singleton .., fun r hr c hc => ?_⟩
    rw [mem_singleton.mp hc]
    exact fresh r hr
  · intro r hr
    rcases mem_append.mp hr with hr | hr
    · exact s.above r hr
    · rwa [mem_singleton.mp hr]
  · simp only [total_append, total_cons, total_nil]
    omega

/-- What stands around two nodes in a row. -/
structure Neighbours (m : Nat → Header) (l : List Block) (a x : Block) (r : List Block) : Prop where
  toX : Node m a x
  next : ∀ d ∈ (r ++ l ++ [a]).head?, Node m x d
  rest : (r ++ l ++ [a]).IsChain (Node m)
  orderL : l.Pairwise fun b c => b.stop < c.addr
  orderR : r.Pairwise fun b c => b.stop < c.addr
  gap : a.stop < x.addr
  afterA : ∀ c ∈ r, a.stop < c.addr
  afterX : ∀ c ∈ r, x.stop < c.addr
  cross : ∀ b ∈ l, ∀ c ∈ a :: x :: r, b.stop < c.addr

theorem Sound.neighbours (s : Sound base h nodes alloc got) (split : nodes = l ++ a :: x :: r) :
    Neighbours h.mem l a x r := by
  have around := ClosedChain.around_iff.mp (split ▸ s.ring)
  obtain ⟨toX, rest⟩ := isChain_cons_cons.mp around
  obtain ⟨next, rest⟩ := isChain_cons.mp rest
  have order := s.order
  rw [split, pairwise_append, pairwise_cons, pairwise_cons] at order
  obtain ⟨orderL, ⟨afterA, afterX, orderR⟩, cross⟩ := order
  exact ⟨toX, next, rest, orderL, orderR, afterA x (mem_cons_self ..),
    fun c hc => afterA c (mem_cons_of_mem _ hc), afterX, cross⟩

namespace Neighbours

theorem size (n : Neighbours m l a x r) : (m x.addr).size.toNat = x.units := by
  obtain ⟨d, hd⟩ : ∃ d, d ∈ (r ++ l ++ [a]).head? := by
    cases r <;> cases l <;> exact ⟨_, rfl⟩
  exact (n.next d hd).2

theorem outside (n : Neighbours m l a x r) (hc : c ∈ r ++ l) :
    c.stop < a.addr ∨ x.stop < c.addr := by
  rcases mem_append.mp hc with hc | hc
  · exact .inr (n.afterX c hc)
  · exact .inl (n.cross c hc a (mem_cons_self ..))

end Neighbours

section

variable (s : Sound base h nodes alloc got) (split : nodes = l ++ a :: x :: r)

include s split

theorem Sound.takeWhole (pos : 0 < x.units) :
    Sound base { h with mem := setPtr h.mem a.addr (h.mem x.addr).ptr, freep := a.addr }
      (l ++ a :: r) (x :: alloc) got := by
  have near := s.neighbours split
  have gap := near.gap
  have aStop := a.addr_le_stop
  have xStop := x.addr_le_stop
  have sub : ∀ c ∈ l ++ a :: r, c ∈ nodes := by
    intro c hc
    rw [split]
    simp only [mem_append, mem_cons] at hc ⊢
    tauto
  have memA : a ∈ nodes := sub a (by simp)
  have first := s.first
  have cover := s.cover
  have sum := s.units
  rw [split] at first cover sum
  refine ⟨?_, ?_, ?_, ⟨a, by simp, rfl⟩, fun c hc => s.pos c (sub c hc), ?_, ?_, fun y => ?_, ?_,
    s.regions, s.above, s.small⟩
  · cases l <;> exact first
  · refine ClosedChain.around_iff.mpr (isChain_cons.mpr ⟨fun d hd => ?_, ?_⟩)
    · show Node (setPtr h.mem a.addr (h.mem x.addr).ptr) a d
      rw [Node, setPtr_self]
      exact ⟨(near.next d hd).1, near.toX.2⟩
    · refine chain_frame near.rest fun c hc => setPtr_of_ne ?_
      have := c.addr_le_stop
      rcases near.outside hc with lt | lt <;> omega
  · rw [pairwise_append, pairwise_cons]
    refine ⟨near.orderL, ⟨near.afterA, near.orderR⟩, fun c hc d hd => near.cross c hc d ?_⟩
    simp only [mem_cons] at hd ⊢
    tauto
  · intro c hc
    rcases mem_cons.mp hc with rfl | hc
    · exact pos
    · exact s.allocPos c hc
  · intro c hc
    show (setPtr h.mem a.addr (h.mem x.addr).ptr c.addr).size.toNat = c.units
    rcases mem_cons.mp hc with rfl | hc
    · rw [setPtr_of_ne (by omega)]
      exact near.size
    · rw [setPtr_of_ne (s.node_ne memA hc).symm]
      exact s.size c hc
  · have := cover y
    simp only [hits_append, hits_cons] at *
    omega
  · simp only [total_append, total_cons] at *
    omega

theorem Sound.takeEnd (x' y : Block) (pos : 0 < x'.units) (posY : 0 < y.units)
    (addr : x'.addr = x.addr) (stop : y.addr = x'.stop) (units : x.units = x'.units + y.units)
    (sizeX : left.toNat = x'.units) (sizeY : n.toNat = y.units) :
    Sound base { h with mem := setSize (setSize h.mem x.addr left) y.addr n, freep := a.addr }
      (l ++ a :: x' :: r) (y :: alloc) got := by
  have near := s.neighbours split
  have gap := near.gap
  have aStop := a.addr_le_stop
  have memA : a ∈ nodes := by rw [split]; simp
  have memX : x ∈ nodes := by rw [split]; simp
  have ends : x.addr < y.addr ∧ y.addr < x.stop ∧ x'.stop < x.stop := by
    simp only [Block.stop, headerSize] at stop ⊢
    omega
  have same : ∀ c, c ≠ x.addr → c ≠ y.addr →
      setSize (setSize h.mem x.addr left) y.addr n c = h.mem c := by
    intro c hx hy
    rw [setSize_of_ne hy, setSize_of_ne hx]
  have first := s.first
  have cover := s.cover
  have sum := s.units
  rw [split] at first cover sum
  refine ⟨?_, ?_, ?_, ⟨a, by simp, rfl⟩, ?_, ?_, ?_, fun z => ?_, ?_, s.regions, s.above, s.small⟩
  · cases l <;> exact first
  · refine ClosedChain.around_iff.mpr (isChain_cons_cons.mpr ⟨?_,
      isChain_cons.mpr ⟨fun d hd => ?_, ?_⟩⟩)
    · show Node (setSize (setSize h.mem x.addr left) y.addr n) a x'
      rw [Node, same a.addr (by omega) (by omega), addr]
      exact near.toX
    · show Node (setSize (setSize h.mem x.addr left) y.addr n) x' d
      rw [Node, addr, setSize_of_ne ends.1.ne, setSize_self]
      exact ⟨(near.next d hd).1, sizeX⟩
    · refine chain_frame near.rest fun c hc => same _ ?_ ?_
      · have := c.addr_le_stop
        rcases near.outside hc with lt | lt <;> omega
      · have := c.addr_le_stop
        rcases near.outside hc with lt | lt <;> omega
  · rw [pairwise_append, pairwise_cons, pairwise_cons]
    refine ⟨near.orderL, ⟨fun c hc => ?_, fun c hc => ?_, near.orderR⟩, fun c hc d hd => ?_⟩
    · rcases mem_cons.mp hc with rfl | hc
      · rwa [addr]
      · exact near.afterA c hc
    · have := near.afterX c hc
      omega
    · rcases mem_cons.mp hd with rfl | hd
      · exact near.cross c hc d (mem_cons_self ..)
      rcases mem_cons.mp hd with rfl | hd
      · rw [addr]
        exact near.cross c hc x (by simp)
      · exact near.cross c hc d (by simp [hd])
  · intro c hc
    simp only [mem_append, mem_cons] at hc
    rcases hc with hc | rfl | rfl | hc
    · exact s.pos c (by rw [split]; simp [hc])
    · exact s.pos c memA
    · exact fun _ => pos
    · exact s.pos c (by rw [split]; simp [hc])
  · intro c hc
    rcases mem_cons.mp hc with rfl | hc
    · exact posY
    · exact s.allocPos c hc
  · intro c hc
    show (setSize (setSize h.mem x.addr left) y.addr n c.addr).size.toNat = c.units
    rcases mem_cons.mp hc with rfl | hc
    · rwa [setSize_self]
    · have := Block.addr_lt_stop (s.allocPos c hc)
      have away : c.addr ≠ x.addr ∧ c.addr ≠ y.addr := by
        rcases s.apart memX hc with le | le <;> exact ⟨by omega, by omega⟩
      rw [same c.addr away.1 away.2]
      exact s.size c hc
  · have whole : x.hit z = x'.hit z + y.hit z := by
      have joined : x = ⟨x'.addr, x'.units + y.units⟩ := by rw [← units, addr]
      have last : y = ⟨x'.addr + headerSize * x'.units, y.units⟩ := by
        rw [show x'.addr + headerSize * x'.units = y.addr from stop.symm]
      rw [joined, hit_add, ← last]
    have := cover z
    simp only [hits_append, hits_cons] at *
    omega
  · simp only [total_append, total_cons] at *
    omega

theorem Sound.take (pos : 0 < n.toNat) (fits : n.toNat ≤ x.units) :
    ∃ h' nodes' y, take h n a.addr x.addr = (h', y.addr + headerSize) ∧ y.units = n.toNat ∧
      y.stop = x.stop ∧ Sound base h' nodes' (y :: alloc) got ∧ h'.sbrks = h.sbrks := by
  have size := (s.neighbours split).size
  by_cases whole : (h.mem x.addr).size = n
  · refine ⟨_, _, x, ?_, ?_, rfl, s.takeWhole split (lt_of_lt_of_le pos fits), rfl⟩
    · rw [Malloc.take, if_pos whole]
    · rw [← size, whole]
  · have less : n.toNat < x.units := by
      refine lt_of_le_of_ne fits fun eq => whole (UInt32.toNat_inj.mp ?_)
      rw [size, eq]
    have left : ((h.mem x.addr).size - n).toNat = x.units - n.toNat := by
      rw [UInt32.toNat_sub_of_le _ _ (by rwa [UInt32.le_iff_toNat_le, size]), size]
    refine ⟨_, _, ⟨x.addr + headerSize * (x.units - n.toNat), n.toNat⟩, ?_, rfl,
      by simp only [Block.stop, headerSize]; omega, s.takeEnd split ⟨x.addr, x.units - n.toNat⟩
        ⟨x.addr + headerSize * (x.units - n.toNat), n.toNat⟩ (Nat.sub_pos_of_lt less) pos rfl
        rfl (Nat.sub_add_cancel fits).symm left rfl, rfl⟩
    rw [Malloc.take, if_neg whole]
    dsimp only
    rw [setSize_self, plus, left]

end

end Take

section Search

variable {x : Block}

/-- Two nodes in a row on the way around the circle stand in a row in the list, unless the second
is the first of the list. -/
theorem in_row (split : nodes = l ++ f :: r) (row : f :: (r ++ l ++ [f]) = u ++ a :: x :: v) :
    (∃ l' r', nodes = l' ++ a :: x :: r') ∨ nodes.head? = some x := by
  have circle : ClosedChain
      (fun a x => (∃ l' r', nodes = l' ++ a :: x :: r') ∨ nodes.head? = some x) nodes := by
    cases nodes with
    | nil => trivial
    | cons z t =>
      refine isChain_iff_forall_rel_of_append_cons_cons.mpr fun b c l1 l2 eq => ?_
      rcases eq_nil_or_concat l2 with rfl | ⟨l3, e, rfl⟩
      · have last := congrArg List.getLast? eq
        rw [List.getLast?_concat, show l1 ++ [b, c] = (l1 ++ [b]) ++ [c] by simp,
          List.getLast?_concat] at last
        exact .inr last
      · have front : z :: t = l1 ++ b :: c :: l3 := by
          have drop := congrArg List.dropLast eq
          rwa [dropLast_concat, show l1 ++ b :: c :: (l3.concat e) =
            (l1 ++ b :: c :: l3) ++ [e] by simp, dropLast_concat] at drop
        exact .inl ⟨l1, l3, front⟩
  rw [split] at circle
  have around := ClosedChain.around_iff.mp circle
  rw [row] at around
  have pair := (isChain_append_cons_cons.mp around).2.1
  rwa [← split] at pair

/-- What `malloc` does when it has come around without a block. -/
def askMore (n : UInt32) (fuel : Nat) (h : Heap) (answers : List (Option Nat)) :
    Option (Heap × Nat) :=
  (morecore fuel h n answers.head?.join).bind fun r =>
    if r.2 = 0 then some (r.1, 0) else mallocLoop n fuel r.1 r.2 (r.1.mem r.2).ptr answers.tail

/-- The loop of `malloc` goes along the list, to the first block that is large enough or once
around. -/
theorem mallocLoop_walk (answers : List (Option Nat))
    (sizeF : (h.mem f.addr).size.toNat = f.units) (freep : h.freep = f.addr) :
    ∀ (w : List Block) {a : Block} {p : Nat}, (a :: (w ++ [f])).IsChain (Node h.mem) →
    (∀ c ∈ w, c.addr ≠ f.addr) → (∀ c ∈ (w ++ [f]).head?, c.addr = p) →
    (∃ u a' x v, a :: (w ++ [f]) = u ++ a' :: x :: v ∧ n.toNat ≤ x.units ∧
      ∀ fuel, mallocLoop n (fuel + (w.length + 1)) h a.addr p answers =
        some (take h n a'.addr x.addr)) ∨
    (∀ c ∈ w ++ [f], c.units < n.toNat) ∧
      ∀ fuel, mallocLoop n (fuel + (w.length + 1)) h a.addr p answers = askMore n fuel h answers
  | [], a, p, chain, _, start => by
    obtain rfl : f.addr = p := start f rfl
    by_cases fits : n.toNat ≤ f.units
    · refine .inl ⟨[], a, f, [], rfl, fits, fun fuel => ?_⟩
      unfold mallocLoop
      rw [if_pos (by rwa [ge_iff_le, le_iff_toNat_le, sizeF])]
    · refine .inr ⟨fun c hc => ?_, fun fuel => ?_⟩
      · rw [mem_singleton.mp hc]
        omega
      · conv_lhs => unfold mallocLoop
        rw [if_neg (by rwa [ge_iff_le, le_iff_toNat_le, sizeF]),
          if_pos freep.symm]
        rfl
  | b :: w, a, p, chain, ne, start => by
    obtain rfl : b.addr = p := start b rfl
    obtain ⟨-, rest⟩ := isChain_cons_cons.mp chain
    obtain ⟨next, -⟩ := isChain_cons.mp rest
    have sizeB : (h.mem b.addr).size.toNat = b.units := by
      obtain ⟨d, hd⟩ : ∃ d, d ∈ (w ++ [f]).head? := by cases w <;> exact ⟨_, rfl⟩
      exact (next d hd).2
    by_cases fits : n.toNat ≤ b.units
    · refine .inl ⟨[], a, b, w ++ [f], rfl, fits, fun fuel => ?_⟩
      rw [length_cons, ← add_assoc]
      unfold mallocLoop
      rw [if_pos (by rwa [ge_iff_le, le_iff_toNat_le, sizeB])]
    · have go (fuel : Nat) : mallocLoop n (fuel + ((b :: w).length + 1)) h a.addr b.addr answers =
          mallocLoop n (fuel + (w.length + 1)) h b.addr (h.mem b.addr).ptr answers := by
        rw [length_cons, ← add_assoc]
        conv_lhs => unfold mallocLoop
        rw [if_neg (by rwa [ge_iff_le, le_iff_toNat_le, sizeB]),
          if_neg (by rw [freep]; exact ne b (mem_cons_self ..))]
      rcases mallocLoop_walk answers sizeF freep w (a := b) (p := (h.mem b.addr).ptr) rest
          (fun c hc => ne c (mem_cons_of_mem _ hc)) (fun c hc => (next c hc).1.symm) with
        ⟨u, a', x, v, row, fitsX, ran⟩ | ⟨none, ran⟩
      · refine .inl ⟨a :: u, a', x, v, ?_, fitsX, fun fuel => (go fuel).trans (ran fuel)⟩
        exact congrArg (a :: ·) row
      · refine .inr ⟨fun c hc => ?_, fun fuel => (go fuel).trans (ran fuel)⟩
        rcases mem_cons.mp hc with rfl | hc
        · omega
        · exact none c hc

/-- The loop of `malloc` takes a block, or finds that none is large enough. -/
theorem Sound.search (s : Sound base h nodes alloc got) (pos : 0 < n.toNat)
    (answers : List (Option Nat)) :
    (∃ h' nodes' y, y.units = n.toNat ∧ (∃ x ∈ nodes, n.toNat ≤ x.units ∧ y.stop = x.stop) ∧
      Sound base h' nodes' (y :: alloc) got ∧ h'.sbrks = h.sbrks ∧ ∀ fuel, mallocLoop n (fuel + nodes.length) h h.freep
        (h.mem h.freep).ptr answers = some (h', y.addr + headerSize)) ∨
    (∀ c ∈ nodes, c.units < n.toNat) ∧ ∀ fuel, mallocLoop n (fuel + nodes.length) h h.freep
      (h.mem h.freep).ptr answers = askMore n fuel h answers := by
  obtain ⟨f, hf, freep⟩ := s.freep
  obtain ⟨l, r, split⟩ := append_of_mem hf
  have chain := ClosedChain.around_iff.mp (split ▸ s.ring)
  obtain ⟨next, -⟩ := isChain_cons.mp chain
  have sizeF : (h.mem f.addr).size.toNat = f.units := by
    obtain ⟨d, hd⟩ : ∃ d, d ∈ (r ++ l ++ [f]).head? := by
      cases r <;> cases l <;> exact ⟨_, rfl⟩
    exact (next d hd).2
  have ne : ∀ c ∈ r ++ l, c.addr ≠ f.addr := by
    intro c hc
    have := f.addr_le_stop
    have := c.addr_le_stop
    rcases mem_append.mp hc with hc | hc
    · have := s.addr_lt split hc
      omega
    · have := s.lt_addr split hc
      omega
  have length : nodes.length = (r ++ l).length + 1 := by
    rw [split]
    simp only [length_append, length_cons]
    omega
  rw [freep, length]
  rcases mallocLoop_walk answers (n := n) sizeF freep (r ++ l) chain ne
      (fun c hc => (next c hc).1.symm) with ⟨u, a, x, v, row, fits, ran⟩ | ⟨none, ran⟩
  · left
    rcases in_row split row with ⟨l', r', split'⟩ | head
    · obtain ⟨h', nodes', y, took, units, stop, sound, calls⟩ := s.take split' pos fits
      exact ⟨h', nodes', y, units, ⟨x, by simp [split'], fits, stop⟩, sound, calls,
        fun fuel => by rw [ran fuel, took]⟩
    · -- `base` has no units
      rw [s.first] at head
      cases head
      exact absurd fits (not_le.mpr pos)
  · refine .inr ⟨fun c hc => none c ?_, ran⟩
    rw [split] at hc
    simp only [mem_append, mem_cons] at hc ⊢
    tauto

end Search

section Malloc

theorem Sound.calls (s : Sound base h nodes alloc got) (calls : List Sbrk) :
    Sound base { h with sbrks := calls } nodes alloc got :=
  ⟨s.first, s.ring, s.order, s.freep, s.pos, s.allocPos, s.size, s.cover, s.units, s.regions,
    s.above, s.small⟩

theorem Sound.freep_ne_zero (s : Sound base h nodes alloc got) (static : base ≠ 0) :
    h.freep ≠ 0 := by
  obtain ⟨b, hb, eq⟩ := s.freep
  rw [eq]
  rcases s.mem_nodes hb with rfl | ⟨lt, -⟩
  · exact static
  · omega

theorem coreUnits_pos : 0 < (coreUnits n).toNat := by
  unfold coreUnits
  split
  · decide
  next large =>
    rw [lt_iff_toNat_lt] at large
    have : (4096 : UInt32).toNat = 4096 := rfl
    omega

theorem le_coreUnits : n.toNat ≤ (coreUnits n).toNat := by
  unfold coreUnits
  split
  next small => exact (lt_iff_toNat_lt.mp small).le
  next => exact le_rfl

/-- What `malloc` has done: it returned zero after `sbrk` failed, or it returned a block, with or
without more memory. A block of more memory is its end. -/
inductive Served (base : Nat) (n : UInt32) (answer : Option Nat) (h h' : Heap)
    (alloc got : List Block) (p : Nat) : Prop
  | failed (nodes : List Block) : answer = none → p = 0 → Sound base h' nodes alloc got →
      h'.sbrks = h.sbrks ++ [⟨sbrkArg (coreUnits n), none⟩] → Served base n answer h h' alloc got p
  | found (nodes : List Block) (y : Block) : p = y.addr + headerSize → y.units = n.toNat →
      Sound base h' nodes (y :: alloc) got → h'.sbrks = h.sbrks →
      Served base n answer h h' alloc got p
  | grown (nodes : List Block) (y : Block) (hp : Nat) : answer = some hp →
      p = y.addr + headerSize → y.units = n.toNat → hp + headerSize * (coreUnits n).toNat ≤ y.stop →
      Sound base h' nodes (y :: alloc) (got ++ [⟨hp, (coreUnits n).toNat⟩]) →
      h'.sbrks = h.sbrks ++ [⟨sbrkArg (coreUnits n), some hp⟩] →
      Served base n answer h h' alloc got p

theorem askMore_some (more : morecore fuel h n answers.head?.join = some (h1, p)) (ne : p ≠ 0) :
    askMore n fuel h answers = mallocLoop n fuel h1 p (h1.mem p).ptr answers.tail := by
  rw [askMore, more, bind_some]
  exact if_neg ne

theorem Sound.mallocLoop (s : Sound base h nodes alloc got) (static : base ≠ 0)
    (pos : 0 < n.toNat) (answers : List (Option Nat))
    (fresh : ∀ hp, answers.head?.join = some hp → base + headerSize ≤ hp ∧
      (∀ r ∈ got, r.stop ≤ hp) ∧ total got + (coreUnits n).toNat < 2 ^ 32) :
    ∃ enough h' p, (∀ fuel, mallocLoop n (fuel + enough) h h.freep (h.mem h.freep).ptr answers =
      some (h', p)) ∧ Served base n answers.head?.join h h' alloc got p := by
  rcases s.search pos answers with ⟨h', nodes', y, units, -, sound, calls, ran⟩ | ⟨none, ran⟩
  · exact ⟨nodes.length, h', _, ran, .found nodes' y rfl units sound calls⟩
  cases answer : answers.head?.join with
  | none =>
    refine ⟨nodes.length, _, 0, fun fuel => ?_, .failed nodes rfl rfl (s.calls _) rfl⟩
    rw [ran, askMore, answer]
    rfl
  | some hp =>
    obtain ⟨above, higher, small⟩ := fresh hp answer
    have added := s.sbrk (n := coreUnits n) above higher coreUnits_pos small
      (h.sbrks ++ [⟨sbrkArg (coreUnits n), some hp⟩])
    obtain ⟨h1, nodes1, freed, sound1, calls1, c, hc, large, top, others⟩ :=
      added.free (le_refl nodes.length)
    have more (k : Nat) : morecore (nodes.length + k) h n answers.head?.join =
        some (h1, h1.freep) := by
      rw [answer]
      exact map_eq_some_iff.mpr ⟨h1, free_mono k freed, rfl⟩
    -- the new memory is in the list, so that the second time around there is a block
    rcases sound1.search pos answers.tail with
      ⟨h', nodes', y, units, ⟨x, hx, fits, stop⟩, sound, calls, ran1⟩ | ⟨none1, -⟩
    · obtain rfl : x = c := (others x hx).resolve_right fun old => by
        have := none x old
        omega
      refine ⟨nodes.length + nodes1.length + nodes.length, h', y.addr + headerSize, fun fuel => ?_,
        .grown nodes' y hp rfl rfl units (stop ▸ top) sound (calls.trans calls1)⟩
      have more' := more (fuel + nodes1.length)
      rw [show nodes.length + (fuel + nodes1.length) = fuel + (nodes.length + nodes1.length) by
        omega] at more'
      rw [← add_assoc, ran, askMore_some more' (sound1.freep_ne_zero static),
        ← add_assoc, ran1]
    · have few := none1 c hc
      have enough : n.toNat ≤ c.units := le_coreUnits.trans large
      omega

end Malloc

end Xv6.Malloc
