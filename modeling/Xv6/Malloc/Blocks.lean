import Xv6.Lib.ClosedChain
import Xv6.Malloc.System

/-! Blocks and the memory that they cover, which splitting a block and joining two leave alone. -/

namespace Xv6.Malloc

def Block.hit (b : Block) (x : Nat) : Nat := if b.Contains x then 1 else 0

def hits (bs : List Block) (x : Nat) : Nat := (bs.map (·.hit x)).sum

def total (bs : List Block) : Nat := (bs.map (·.units)).sum

variable {b c : Block} {bs cs : List Block} {x : Nat}

@[simp] theorem hits_nil : hits [] x = 0 := rfl

@[simp] theorem hits_cons : hits (b :: bs) x = b.hit x + hits bs x := by simp [hits]

@[simp] theorem hits_append : hits (bs ++ cs) x = hits bs x + hits cs x := by simp [hits]

@[simp] theorem total_nil : total [] = 0 := rfl

@[simp] theorem total_cons : total (b :: bs) = b.units + total bs := by simp [total]

@[simp] theorem total_append : total (bs ++ cs) = total bs + total cs := by simp [total]

@[simp] theorem hit_zero {a : Nat} : (⟨a, 0⟩ : Block).hit x = 0 := by
  rw [Block.hit, if_neg]
  rintro ⟨low, high⟩
  simp only [Block.stop, headerSize] at low high
  omega

theorem hit_add (a m n : Nat) :
    (⟨a, m + n⟩ : Block).hit x =
      (⟨a, m⟩ : Block).hit x + (⟨a + headerSize * m, n⟩ : Block).hit x := by
  have whole : (⟨a, m + n⟩ : Block).Contains x ↔
      (⟨a, m⟩ : Block).Contains x ∨ (⟨a + headerSize * m, n⟩ : Block).Contains x := by
    simp only [Block.Contains, Block.stop, headerSize]
    omega
  have once : ¬((⟨a, m⟩ : Block).Contains x ∧ (⟨a + headerSize * m, n⟩ : Block).Contains x) := by
    simp only [Block.Contains, Block.stop]
    omega
  unfold Block.hit
  by_cases first : (⟨a, m⟩ : Block).Contains x
  · rw [if_pos (whole.mpr (.inl first)), if_pos first, if_neg fun second => once ⟨first, second⟩]
  · by_cases second : (⟨a + headerSize * m, n⟩ : Block).Contains x
    · rw [if_pos (whole.mpr (.inr second)), if_neg first, if_pos second]
    · rw [if_neg fun h => (whole.mp h).elim first second, if_neg first, if_neg second]

theorem hit_le_hits (mem : b ∈ bs) : b.hit x ≤ hits bs x :=
  List.single_le_sum (fun _ _ => Nat.zero_le _) _ (List.mem_map_of_mem mem)

theorem hit_eq_one (h : b.Contains x) : b.hit x = 1 := if_pos h

theorem hits_ne_zero : hits bs x ≠ 0 ↔ ∃ b ∈ bs, b.Contains x := by
  constructor
  · intro h
    by_contra none
    refine h (List.sum_eq_zero fun n mem => ?_)
    obtain ⟨b, hb, rfl⟩ := List.mem_map.mp mem
    exact if_neg fun inside => none ⟨b, hb, inside⟩
  · rintro ⟨b, mem, inside⟩
    have le : b.hit x ≤ hits bs x := hit_le_hits mem
    rw [hit_eq_one inside] at le
    omega

theorem contains_addr (pos : 0 < b.units) : b.Contains b.addr :=
  ⟨le_rfl, by simp only [Block.stop, headerSize]; omega⟩

def Block.Apart (b c : Block) : Prop := b.stop ≤ c.addr ∨ c.stop ≤ b.addr

theorem apart_of_hit (once : ∀ x, b.hit x + c.hit x ≤ 1) (hb : 0 < b.units) (hc : 0 < c.units) :
    b.Apart c := by
  by_contra meet
  have both : b.Contains (max b.addr c.addr) ∧ c.Contains (max b.addr c.addr) := by
    unfold Block.Apart at meet
    unfold Block.Contains
    simp only [Block.stop, headerSize] at meet ⊢
    omega
  have := once (max b.addr c.addr)
  rw [hit_eq_one both.1, hit_eq_one both.2] at this
  omega

theorem pairwise_apart (once : ∀ x, hits bs x ≤ 1) (pos : ∀ b ∈ bs, 0 < b.units) :
    bs.Pairwise Block.Apart := by
  induction bs with
  | nil => exact .nil
  | cons b bs ih =>
    refine List.pairwise_cons.mpr ⟨fun c hc => ?_, ih (fun x => ?_) fun c hc => ?_⟩
    · refine apart_of_hit (fun x => ?_) (pos b (List.mem_cons_self ..))
        (pos c (List.mem_cons_of_mem _ hc))
      have le : c.hit x ≤ hits bs x := hit_le_hits hc
      have := once x
      rw [hits_cons] at this
      omega
    · have := once x
      rw [hits_cons] at this
      omega
    · exact pos c (List.mem_cons_of_mem _ hc)

theorem hits_le_one (h : bs.Pairwise fun r r' => r.stop ≤ r'.addr) : hits bs x ≤ 1 := by
  induction h with
  | nil => exact Nat.zero_le 1
  | @cons r bs above _ ih =>
    rw [hits_cons]
    by_cases inside : r.Contains x
    · have none : hits bs x = 0 := by
        by_contra some
        obtain ⟨c, hc, low, -⟩ := hits_ne_zero.mp some
        have := above c hc
        have := inside.2
        omega
      rw [none, hit_eq_one inside]
    · rw [show r.hit x = 0 from if_neg inside]
      omega

end Xv6.Malloc
