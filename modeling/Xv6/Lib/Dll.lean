import Mathlib

/-! Circular doubly linked lists through a head node: unlinking, insertion at the head and the two
scans. -/

namespace Dll

open Function List

variable {α : Type*}

/-- The `next` and `prev` fields of the nodes. -/
structure Links (α : Type*) where
  next : α → α
  prev : α → α

def Links.flip (L : Links α) : Links α := ⟨L.prev, L.next⟩

def Links.Joined (L : Links α) (a b : α) : Prop := L.next a = b ∧ L.prev b = a

/-- The nodes `xs` stand in a circle with the head `h`, in both directions and each once. -/
structure Circular (L : Links α) (h : α) (xs : List α) : Prop where
  chain : (h :: (xs ++ [h])).IsChain L.Joined
  nodup : (h :: xs).Nodup

theorem circular_nil {h : α} (next : L.next h = h) (prev : L.prev h = h) : Circular L h [] :=
  ⟨isChain_pair.mpr ⟨next, prev⟩, nodup_singleton h⟩

section Chains

variable {R R' : α → α → Prop} {l : List α}

theorem chain_congr (h : l.IsChain R)
    (same : ∀ a b, a ∈ l.dropLast → b ∈ l.tail → R a b → R' a b) : l.IsChain R' := by
  induction h with
  | nil => exact .nil
  | singleton a => exact .singleton a
  | @cons_cons a b l ab chain ih =>
    refine .cons_cons (same a b (by simp) (by simp) ab) (ih fun c d hc hd cd => ?_)
    exact same c d (by simp [hc]) (mem_cons_of_mem _ hd) cd

theorem getLast_not_mem_dropLast (nodup : l.Nodup) (last : p ∈ l.getLast?) : p ∉ l.dropLast := by
  obtain ⟨front, rfl⟩ := List.getLast?_eq_some_iff.mp last
  rw [dropLast_concat]
  exact fun mem => (nodup_append.mp nodup).2.2 p mem p (mem_singleton_self p) rfl

theorem head_not_mem_tail (nodup : l.Nodup) (first : n ∈ l.head?) : n ∉ l.tail := by
  obtain ⟨back, rfl⟩ := List.head?_eq_some_iff.mp first
  exact (nodup_cons.mp nodup).1

end Chains

namespace Circular

variable {L : Links α} {h b : α} {xs ys : List α}

theorem flip (c : Circular L h xs) : Circular L.flip h xs.reverse where
  chain := by
    have around : h :: (xs.reverse ++ [h]) = (h :: (xs ++ [h])).reverse := by simp
    rw [around, isChain_reverse]
    exact c.chain.imp fun a b joined => ⟨joined.2, joined.1⟩
  nodup := by
    rw [nodup_cons, mem_reverse, nodup_reverse]
    exact nodup_cons.mp c.nodup

theorem around (c : Circular L h (xs ++ b :: ys)) :
    ∃ p ∈ (h :: xs).getLast?, ∃ n ∈ (ys ++ [h]).head?, L.Joined p b ∧ L.Joined b n ∧
      (h :: xs).IsChain L.Joined ∧ (ys ++ [h]).IsChain L.Joined := by
  have chain := c.chain
  rw [show h :: ((xs ++ b :: ys) ++ [h]) = (h :: xs) ++ (b :: (ys ++ [h])) by simp,
    isChain_append] at chain
  obtain ⟨front, back, seam⟩ := chain
  rw [isChain_cons] at back
  have last : (h :: xs).getLast? = some ((h :: xs).getLast (by simp)) := List.getLast?_eq_some_getLast _
  have first : (ys ++ [h]).head? = some ((ys ++ [h]).head (by simp)) := List.head?_eq_some_head _
  exact ⟨_, last, _, first, seam _ last _ rfl, back.1 _ first, front, back.2⟩

end Circular

variable [DecidableEq α]

namespace Links

variable (L : Links α)

def setNext (a b : α) : Links α := { L with next := update L.next a b }

def setPrev (a b : α) : Links α := { L with prev := update L.prev a b }

def unlink (b : α) : Links α :=
  let L := L.setPrev (L.next b) (L.prev b)
  L.setNext (L.prev b) (L.next b)

def push (h b : α) : Links α :=
  let L := L.setNext b (L.next h)
  let L := L.setPrev b h
  let L := L.setPrev (L.next h) b
  L.setNext h b

end Links

/-- The scan from `a` along `next` for a node that passes `test`: `some none` back at the head,
`none` after `k` nodes. -/
def scan (next : α → α) (h : α) (test : α → Bool) : Nat → α → Option (Option α)
  | 0, _ => none
  | k + 1, a =>
    if a = h then some none else if test a then some (some a) else scan next h test k (next a)

namespace Circular

variable {L : Links α} {h b : α} {xs ys : List α}

theorem scan_chain (chain : (a :: (ys ++ [h])).IsChain L.Joined) (head : h ∉ ys) (test : α → Bool)
    (fuel : ys.length < k) : scan L.next h test k (L.next a) = some (ys.find? test) := by
  induction ys generalizing a k with
  | nil =>
    obtain ⟨k, rfl⟩ : ∃ j, k = j + 1 := ⟨k - 1, by simp at fuel; omega⟩
    have joined : L.Joined a h := isChain_pair.mp chain
    rw [joined.1, scan, if_pos rfl, List.find?_nil]
  | cons y ys ih =>
    obtain ⟨k, rfl⟩ : ∃ j, k = j + 1 := ⟨k - 1, by simp at fuel; omega⟩
    rw [mem_cons, not_or] at head
    obtain ⟨joined, rest⟩ := isChain_cons_cons.mp chain
    rw [joined.1, scan, if_neg (Ne.symm head.1)]
    by_cases pass : test y = true
    · rw [if_pos pass, List.find?_cons_of_pos pass]
    · rw [if_neg pass, List.find?_cons_of_neg pass]
      exact ih rest head.2 (by simp at fuel; omega)

theorem scan_next (c : Circular L h xs) (test : α → Bool) (fuel : xs.length < k) :
    scan L.next h test k (L.next h) = some (xs.find? test) :=
  scan_chain c.chain (nodup_cons.mp c.nodup).1 test fuel

theorem scan_prev (c : Circular L h xs) (test : α → Bool) (fuel : xs.length < k) :
    scan L.prev h test k (L.prev h) = some (xs.reverse.find? test) :=
  c.flip.scan_next test (by rwa [length_reverse])

theorem unlink (c : Circular L h (xs ++ b :: ys)) : Circular (L.unlink b) h (xs ++ ys) := by
  obtain ⟨p, last, n, first, pb, bn, front, back⟩ := c.around
  have nodup : (h :: xs).Nodup ∧ (b :: ys).Nodup ∧ ∀ a ∈ h :: xs, ∀ d ∈ b :: ys, a ≠ d :=
    nodup_append.mp c.nodup
  obtain ⟨frontNodup, backNodup, apart⟩ := nodup
  have head : h ∈ h :: xs := mem_cons_self
  have inFront : p ∈ h :: xs := mem_of_getLast? last
  have inBack : n ∈ ys ∨ n = h := by simpa using mem_of_head? first
  have ringNodup : (ys ++ [h]).Nodup := by
    rw [nodup_append]
    refine ⟨(nodup_cons.mp backNodup).2, nodup_singleton h, fun a ha d hd => ?_⟩
    rw [mem_singleton.mp hd]
    exact (apart h head a (mem_cons_of_mem _ ha)).symm
  have nb : b ≠ n := by
    rcases inBack with mem | rfl
    · exact fun eq => (nodup_cons.mp backNodup).1 (eq ▸ mem)
    · exact (apart n head b mem_cons_self).symm
  have links : L.unlink b = ⟨update L.next p n, update L.prev n p⟩ := by
    simp only [Links.unlink, Links.setPrev, Links.setNext, bn.1, pb.2, update_of_ne nb]
  -- the pairs that the new list has from the old one
  have keep : ∀ a d, a ≠ p → d ≠ n → L.Joined a d → (L.unlink b).Joined a d := by
    intro a d ha hd joined
    rw [links]
    exact ⟨(update_of_ne ha ..).trans joined.1,
      (update_of_ne hd ..).trans joined.2⟩
  refine ⟨?_, ?_⟩
  · rw [show h :: ((xs ++ ys) ++ [h]) = (h :: xs) ++ (ys ++ [h]) by simp, isChain_append]
    refine ⟨chain_congr front fun a d ha hd => keep a d ?_ ?_,
      chain_congr back fun a d ha hd => keep a d ?_ ?_, fun a ha d hd => ?_⟩
    · rintro rfl
      exact getLast_not_mem_dropLast frontNodup last ha
    · rintro rfl
      rcases inBack with mem | rfl
      · exact apart d (mem_cons_of_mem _ hd) d (mem_cons_of_mem _ mem) rfl
      · exact (nodup_cons.mp frontNodup).1 hd
    · rintro rfl
      have mem : a ∈ ys := by simpa using ha
      exact apart a inFront a (mem_cons_of_mem _ mem) rfl
    · rintro rfl
      exact head_not_mem_tail ringNodup first hd
    · obtain rfl : p = a := Option.some.inj (last.symm.trans ha)
      obtain rfl : n = d := Option.some.inj (first.symm.trans hd)
      rw [links]
      exact ⟨update_self .., update_self ..⟩
  · rw [← cons_append, nodup_append]
    exact ⟨frontNodup, (nodup_cons.mp backNodup).2,
      fun a ha d hd => apart a ha d (mem_cons_of_mem _ hd)⟩

theorem push (c : Circular L h xs) (new : b ∉ h :: xs) : Circular (L.push h b) h (b :: xs) := by
  rw [mem_cons, not_or] at new
  obtain ⟨bh, bxs⟩ := new
  obtain ⟨hxs, nodup⟩ := nodup_cons.mp c.nodup
  obtain ⟨joined, back⟩ := isChain_cons.mp c.chain
  have first : (xs ++ [h]).head? = some ((xs ++ [h]).head (by simp)) := List.head?_eq_some_head _
  generalize (xs ++ [h]).head (by simp) = n at first
  have next : L.next h = n := (joined n first).1
  have inBack : n ∈ xs ∨ n = h := by simpa using mem_of_head? first
  have bn : b ≠ n := by
    rcases inBack with mem | rfl
    · exact fun eq => bxs (eq ▸ mem)
    · exact bh
  have ringNodup : (xs ++ [h]).Nodup := by
    rw [nodup_append]
    refine ⟨nodup, nodup_singleton h, fun a ha d hd => ?_⟩
    rw [mem_singleton.mp hd]
    exact fun eq => hxs (eq ▸ ha)
  have links : L.push h b = ⟨update (update L.next b n) h b,
      update (update L.prev b h) n b⟩ := by
    simp only [Links.push, Links.setPrev, Links.setNext, next,
      update_of_ne (Ne.symm bh)]
  refine ⟨?_, ?_⟩
  · show (h :: b :: (xs ++ [h])).IsChain _
    rw [isChain_cons_cons, isChain_cons, links]
    refine ⟨⟨update_self .., ?_⟩, fun d hd => ?_, chain_congr back fun a d ha hd ad => ?_⟩
    · show update (update L.prev b h) n b b = h
      rw [update_of_ne bn, update_self]
    · obtain rfl : n = d := Option.some.inj (first.symm.trans hd)
      refine ⟨?_, update_self ..⟩
      show update (update L.next b n) h b b = n
      rw [update_of_ne bh, update_self]
    · have ha : a ∈ xs := by simpa using ha
      have hd' : d ∈ xs ∨ d = h := by simpa using mem_of_mem_tail hd
      have ne : a ≠ h ∧ a ≠ b := ⟨fun eq => hxs (eq ▸ ha), fun eq => bxs (eq ▸ ha)⟩
      have db : d ≠ b := by
        rcases hd' with mem | rfl
        · exact fun eq => bxs (eq ▸ mem)
        · exact Ne.symm bh
      have dn : d ≠ n := by
        rintro rfl
        exact head_not_mem_tail ringNodup first hd
      refine ⟨?_, ?_⟩
      · show update (update L.next b n) h b a = d
        rw [update_of_ne ne.1, update_of_ne ne.2, ad.1]
      · show update (update L.prev b h) n b d = a
        rw [update_of_ne dn, update_of_ne db, ad.2]
  · rw [nodup_cons, nodup_cons, mem_cons, not_or]
    exact ⟨⟨Ne.symm bh, hxs⟩, bxs, nodup⟩

theorem move (c : Circular L h xs) (mem : b ∈ xs) :
    Circular ((L.unlink b).push h b) h (b :: xs.erase b) := by
  obtain ⟨front, back, rfl⟩ := append_of_mem mem
  have apart := (nodup_append.mp (nodup_cons.mp c.nodup).2).2.2
  have absent : b ∉ front := fun hb => apart b hb b mem_cons_self rfl
  rw [erase_append_right _ absent, erase_cons_head]
  refine c.unlink.push fun hb => ?_
  have nodup := c.nodup
  rw [nodup_cons, nodup_append, nodup_cons] at nodup
  rcases mem_cons.mp hb with rfl | hb
  · exact nodup.1 (mem_append_right _ mem_cons_self)
  · rcases mem_append.mp hb with hb | hb
    · exact absent hb
    · exact nodup.2.2.1.1 hb

end Circular

end Dll
