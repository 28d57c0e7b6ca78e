import Xv6.Vm.PageTable
import Xv6.Lib.Radix

/-! `kalloc`, `kfree` and `walk`, in terms of who holds the pages: those that `kinit` gave to the
allocator are free or held, each once. -/

namespace Xv6.Vm

open Wp Function Multiset UInt64

/-- How `walk` and `freewalk` read entries. -/
def fmt : Radix.Format Addr UInt64 UInt64 where
  child v := if v &&& pteV ≠ 0 then some (pte2pa v) else none
  entry v := if v &&& pteV ≠ 0 then some v else none
  inner v := v &&& (pteR ||| pteW ||| pteX) = 0

abbrev tablePages (w : Addr → Page) (pt : Addr) : Multiset Addr := Radix.nodes fmt w 2 pt

variable {k : Symbols} {m m' : Mem} {R : Multiset Addr} {x : Addr} {E : Stop → Prop}

section Pages

theorem pgroundup_end : (pgroundup k.end_).toNat = (k.end_.toNat + 4095) / 4096 * 4096 := by
  have := le_iff_toNat_le.mp k.end_le
  refine pgroundup_toNat ?_
  have : phystop.toNat = 0x88000000 := by decide
  omega

theorem page_toNat (h : i < (phystop.toNat - (pgroundup k.end_).toNat) / 4096) :
    (pgroundup k.end_ + UInt64.ofNat i * pgsize).toNat = (pgroundup k.end_).toNat + i * 4096 := by
  have top : phystop.toNat = 0x88000000 := by decide
  rw [top] at h
  rw [UInt64.toNat_add, UInt64.toNat_mul, UInt64.toNat_ofNat', show pgsize.toNat = 4096 from rfl]
  omega

theorem mem_pages (h : x ∈ k.pages) : x.toNat % 4096 = 0 ∧ k.end_ ≤ x ∧ x < phystop := by
  obtain ⟨i, hi, rfl⟩ := List.mem_map.mp h
  have lt := List.mem_range.mp hi
  rw [le_iff_toNat_le, lt_iff_toNat_lt, page_toNat lt, pgroundup_end]
  rw [pgroundup_end] at lt
  omega

theorem pages_nodup : k.pages.Nodup := by
  refine List.Nodup.map_on (fun i hi j hj h => ?_) List.nodup_range
  have h := congrArg UInt64.toNat h
  rw [page_toNat (List.mem_range.mp hi), page_toNat (List.mem_range.mp hj)] at h
  omega

theorem pages_length : k.pages.length ≤ 2 ^ 15 := by
  have low := le_iff_toNat_le.mp k.kernbase_le
  have high := lt_iff_toNat_lt.mp k.trampoline_lt
  have top : phystop.toNat = 0x88000000 := by decide
  have bottom : kernbase.toNat = 0x80000000 := by decide
  rw [Symbols.pages, List.length_map, List.length_range, pgroundup_end]
  omega

end Pages

variable (k) in
/-- The free list and the held pages `R` are together the pages of the allocator, and no page was
freed twice. -/
structure Holds (m : Mem) (R : Multiset Addr) : Prop where
  part : (m.freelist : Multiset Addr) + R = k.pages
  once : m.twice = false

namespace Holds

theorem nodup (h : Holds k m R) : ((m.freelist : Multiset Addr) + R).Nodup := by
  rw [h.part]
  exact coe_nodup.mpr pages_nodup

theorem held_nodup (h : Holds k m R) : R.Nodup := (nodup_add.mp h.nodup).2.1

theorem mem_pages (h : Holds k m R) (hx : x ∈ R) : x ∈ k.pages := by
  rw [← mem_coe, ← h.part]
  exact mem_add.mpr (.inr hx)

theorem not_free (h : Holds k m R) (hx : x ∈ R) : x ∉ m.freelist := fun hf =>
  disjoint_left.mp (nodup_add.mp h.nodup).2.2 (mem_coe.mpr hf) hx

end Holds

theorem wp_kalloc (h : Holds k m R)
    (fail : m.freelist = [] → Q none m)
    (ok : ∀ x, x ∉ R → ∀ m', Holds k m' (x ::ₘ R) → (∀ y, y ≠ x → m'.word y = m.word y) →
      Q (some x) m') : wp kalloc E Q m := by
  simp only [kalloc, wp_bind, wp_get]
  cases hf : m.freelist with
  | nil => exact fail hf
  | cons x next =>
    have part := h.part
    rw [hf, ← cons_coe, cons_add] at part
    refine ok x (fun hx => h.not_free hx (by simp [hf])) _ ⟨?_, h.once⟩ fun y hy =>
      update_of_ne hy ..
    rw [← part, add_cons]

theorem wp_kfree (h : Holds k m (x ::ₘ R))
    (next : ∀ m', Holds k m' R → (∀ y, y ≠ x → m'.word y = m.word y) → Q () m') :
    wp (kfree k x) E Q m := by
  have held : x ∈ x ::ₘ R := mem_cons_self ..
  obtain ⟨aligned, low, high⟩ := mem_pages (h.mem_pages held)
  refine wp_ite (fun bad => ?_) fun _ => next _ ⟨?_, ?_⟩ fun y hy => update_of_ne hy ..
  · rcases bad with bad | bad | bad
    · refine (bad (UInt64.toNat_inj.mp ?_)).elim
      rwa [UInt64.toNat_mod]
    · exact absurd low (UInt64.not_le.mpr bad)
    · exact absurd bad (UInt64.not_le.mpr high)
  · rw [← h.part, ← Multiset.cons_coe, Multiset.cons_add, Multiset.add_cons]
  · simp [h.once, h.not_free held]

/-- The indices of a virtual address. -/
def ix (va : UInt64) (level : Nat) : Fin 512 := px level va

section Entries

variable {v pa : UInt64}

theorem child_eq_some : fmt.child v = some c ↔ v &&& pteV ≠ 0 ∧ pte2pa v = c := by
  simp [fmt]

theorem child_eq_none : fmt.child v = none ↔ v &&& pteV = 0 := by
  simp [fmt]

theorem pointer_ok (aligned : pa.toNat % 4096 = 0) (small : pa.toNat < 2 ^ 56) :
    fmt.child (pa2pte pa ||| pteV) = some pa ∧ fmt.inner (pa2pte pa ||| pteV) := by
  have flags : pteFlags (pa2pte pa ||| pteV) = pteV := pteFlags_entry (by decide)
  refine ⟨child_eq_some.mpr ⟨?_, pte2pa_entry aligned small (by decide)⟩, ?_⟩
  · rw [and_flags (by decide), flags]
    decide
  · show _ &&& (pteR ||| pteW ||| pteX) = 0
    rw [and_flags (by decide), flags]
    decide

theorem Holds.small (h : Holds k m R) (hx : x ∈ R) : x.toNat % 4096 = 0 ∧ x.toNat < 2 ^ 56 := by
  obtain ⟨aligned, -, high⟩ := Vm.mem_pages (h.mem_pages hx)
  have top : phystop.toNat = 0x88000000 := by decide
  have := lt_iff_toNat_lt.mp high
  omega

end Entries

section Walk

variable {va : UInt64} {l : Nat} {a c : Addr}

theorem Holds.perm (h : Holds k m R) (e : R = S) : Holds k m S := e ▸ h

/-- The result of `walk` with `alloc`, at a level: the tree has grown by pages that were free. -/
def Walked (k : Symbols) (m : Mem) (R : Multiset Addr) (va : UInt64) (l : Nat) (a : Addr)
    (r : Option PtePtr) (m' : Mem) : Prop :=
  ∃ new, Radix.Grew fmt m.word m'.word l a new ∧ Holds k m' (R + Radix.nodes fmt m'.word l a) ∧
    (∀ p, r = some p → Radix.slot fmt m'.word (ix va) l a = some p) ∧
    (r = none → m'.freelist = [])

theorem Walked.lift (h : Holds k m (R + Radix.nodes fmt m.word (l + 1) a))
    (hc : fmt.child (m.word a (ix va (l + 1))) = some c)
    (split : Radix.nodes fmt m.word (l + 1) a = S + Radix.nodes fmt m.word l c)
    (w : Walked k m (R + S) va l c r m') : Walked k m R va (l + 1) a r m' := by
  obtain ⟨new, grew, holds, place, fail⟩ := w
  have nd := (nodup_add.mp h.held_nodup).2.1
  have fresh : ∀ x ∈ new, x ∉ Radix.nodes fmt m.word (l + 1) a := by
    have nd' := holds.held_nodup
    rw [grew.nodes, add_assoc, ← add_assoc S, ← split, ← add_assoc] at nd'
    intro x hx hn
    exact disjoint_left.mp (nodup_add.mp nd').2.2
      (mem_add.mpr (.inr hn)) hx
  have root : m'.word a = m.word a :=
    grew.frame a (Radix.root_not_below nd hc) fun hx => fresh a hx Radix.mem_nodes_self
  have up := grew.lift nd hc fresh
  refine ⟨new, up, ?_, fun p hp => ?_, fail⟩
  · rwa [up.nodes, split, add_assoc S, ← grew.nodes, ← add_assoc]
  · rw [Radix.slot, root, hc]
    exact place p hp

theorem wp_walkLevels (h : Holds k m (R + Radix.nodes fmt m.word l a)) :
    wp (walkLevels va true l a) E (Walked k m R va l a) m := by
  induction l generalizing m R a with
  | zero =>
    exact ⟨0, .refl, h, fun p hp => hp, (by intros; contradiction)⟩
  | succ l ih =>
    -- the descent to the child that the entry points to
    have down : ∀ {m : Mem} {c}, Holds k m (R + Radix.nodes fmt m.word (l + 1) a) →
        fmt.child (m.word a (ix va (l + 1))) = some c →
        wp (walkLevels va true l c) E (Walked k m R va (l + 1) a) m := by
      intro m c h hc
      obtain ⟨S, split⟩ := Radix.exists_nodes_eq_add (l := l) hc
      refine (ih (R := R + S) ?_).mono (fun r m' w => w.lift h hc split) fun _ => id
      rwa [add_assoc, ← split]
    simp only [walkLevels, wp_bind, load, wp_get, wp_pure]
    refine wp_ite (fun valid => ?_) fun invalid => ?_
    · exact down h (child_eq_some.mpr ⟨valid, rfl⟩)
    refine wp_ite (fun bad => by simp at bad) fun _ => ?_
    refine .seq (wp_kalloc h (fun empty => ?_) fun page fresh m1 h1 same => ?_)
    · exact ⟨0, .refl, h, (by intros; contradiction), fun _ => empty⟩
    -- the new page is hung in, and the walk goes on there
    simp only [wp_bind, memset, store, wp_modify]
    generalize hm2 : (m1.setPage page fun _ => 0).setWord (a, px (l + 1) va) _ = m2
    have fresh' : page ∉ Radix.nodes fmt m.word (l + 1) a := fun hx =>
      fresh (mem_add.mpr (.inr hx))
    obtain ⟨aligned, small⟩ := h1.small (mem_cons_self ..)
    obtain ⟨ptr, ok⟩ := pointer_ok aligned small
    have word : m2.word = Radix.set (update m.word page fun _ => 0) a (ix va (l + 1))
        (pa2pte page ||| pteV) := by
      have cleared : update m1.word page (fun _ => 0) =
          update m.word page fun _ => 0 := by
        funext y
        by_cases hy : y = page
        · rw [hy, update_self, update_self]
        · rw [update_of_ne hy, update_of_ne hy, same y hy]
      rw [← hm2, ← cleared]
      rfl
    have grew : Radix.Grew fmt m.word m2.word (l + 1) a {page} := by
      rw [word]
      exact .hang (nodup_add.mp h.held_nodup).2.1
        (child_eq_none.mpr (not_not.mp invalid)) fresh' (by decide) (by decide) ptr ok
    have h2 : Holds k m2 (R + Radix.nodes fmt m2.word (l + 1) a) := by
      rw [grew.nodes, ← add_assoc, add_comm _ (_ : Multiset Addr), singleton_add, ← hm2]
      exact ⟨h1.part, h1.once⟩
    have here : m2.word a (ix va (l + 1)) = pa2pte page ||| pteV := by
      rw [word, Radix.set_self, update_self]
    refine (down h2 (by rwa [here])).mono (fun r m' walked => ?_) fun _ => id
    obtain ⟨new, grew', rest⟩ := walked
    exact ⟨{page} + new, grew.trans grew', rest⟩

theorem walkLevels_false :
    walkLevels va false l a m = .ok (Radix.slot fmt m.word (ix va) l a, m) := by
  induction l generalizing a with
  | zero => rfl
  | succ l ih =>
    have first : walkLevels va false (l + 1) a m =
        (if m.word a (ix va (l + 1)) &&& pteV ≠ 0 then
          walkLevels va false l (pte2pa (m.word a (ix va (l + 1)))) else pure none) m := rfl
    rw [first, Radix.slot]
    split
    next valid => rw [ih, child_eq_some.mpr ⟨valid, rfl⟩, Option.bind_some]
    next invalid =>
      rw [child_eq_none.mpr (not_not.mp invalid)]
      rfl

theorem wp_walk_false (h : va < maxva) :
    wp (walk a va false) E Q m ↔ Q (Radix.slot fmt m.word (ix va) 2 a) m := by
  rw [walk, if_neg (UInt64.not_le.mpr h)]
  exact wp_ok walkLevels_false

theorem wp_walk_true (h : va < maxva) (held : Holds k m (R + tablePages m.word a)) :
    wp (walk a va true) E (Walked k m R va 2 a) m := by
  rw [walk, if_neg (UInt64.not_le.mpr h)]
  exact wp_walkLevels held

end Walk

end Xv6.Vm
