import Xv6.Vm.Space

/-! Several address spaces in one memory: what is done to one leaves the others alone. -/

namespace Xv6.Vm

open Wp Multiset Finset

variable {k : Symbols} {m m' : Mem} {S : Finset Addr} {X Y : Multiset Addr} {r pt x : Addr}
  {E : Stop → Prop} {f g : Map} {w w' : Addr → Page}

def mapOf (w : Addr → Page) (pt : Addr) : Map := fun v =>
  if v < npages then Radix.look fmt w (ix (UInt64.ofNat (v * 4096))) 2 pt else none

/-- The pages of an address space: those of its user mappings and its page-table pages. -/
def spacePages (w : Addr → Page) (pt : Addr) : Multiset Addr := (mapOf w pt).user + tablePages w pt

/-- The pages of the address spaces `S`. -/
def allPages (w : Addr → Page) (S : Finset Addr) : Multiset Addr := ∑ r ∈ S, spacePages w r

variable (k) in
/-- The memory has the address spaces `S` and the other pages `X`, and the rest is free. -/
structure Spaces (m : Mem) (S : Finset Addr) (X : Multiset Addr) : Prop where
  holds : Holds k m (X + allPages m.word S)
  tree : ∀ r ∈ S, Tree m.word r (mapOf m.word r)
  leaf : ∀ r ∈ S, ∀ v e, mapOf m.word r v = some e → e &&& pteR ≠ 0

section Maps

theorem Tree.mapOf_eq (t : Tree w pt f) : mapOf w pt = f := by
  funext v
  rw [mapOf]
  split
  next low =>
    rw [npages_eq] at low
    have toNat : (UInt64.ofNat (v * 4096)).toNat = v * 4096 := by
      rw [UInt64.toNat_ofNat']
      omega
    have bound : UInt64.ofNat (v * 4096) < maxva := by
      rw [UInt64.lt_iff_toNat_lt, maxva_toNat, toNat]
      omega
    rw [t.look bound, toNat, Nat.mul_div_cancel _ (by omega)]
  next high =>
    by_contra mapped
    exact high (t.bound v (Ne.symm mapped))

theorem mapOf_congr (same : ∀ x ∈ tablePages w pt, w' x = w x) : mapOf w' pt = mapOf w pt := by
  funext v
  rw [mapOf, mapOf, Radix.look_congr same]

theorem spacePages_congr (same : ∀ x ∈ tablePages w pt, w' x = w x) :
    spacePages w' pt = spacePages w pt := by
  rw [spacePages, spacePages, mapOf_congr same, tablePages, Radix.nodes_congr same]

theorem root_mem_spacePages : r ∈ spacePages w r :=
  mem_add.mpr (.inr Radix.mem_nodes_self)

theorem spacePages_le (hr : r ∈ S) : spacePages w r ≤ allPages w S :=
  single_le_sum (fun _ _ => zero_le _) hr

theorem tablePages_le_space : tablePages w r ≤ spacePages w r := Multiset.le_add_left ..

theorem allPages_insert (out : r ∉ S) : allPages w (insert r S) = spacePages w r + allPages w S :=
  Finset.sum_insert out

theorem allPages_erase (hr : r ∈ S) : allPages w S = spacePages w r + allPages w (S.erase r) :=
  (add_sum_erase _ _ hr).symm

theorem Kept.table (kept : Kept (spacePages m.word r) m m') :
    ∀ x ∈ tablePages m.word r, m'.word x = m.word x :=
  fun x hx => kept x (mem_of_le tablePages_le_space hx)

theorem Kept.mapOf_eq (kept : Kept (spacePages m.word r) m m') :
    mapOf m'.word r = mapOf m.word r := mapOf_congr kept.table

theorem Kept.spacePages_eq (kept : Kept (spacePages m.word r) m m') :
    spacePages m'.word r = spacePages m.word r := spacePages_congr kept.table

theorem Kept.space (kept : Kept (allPages m.word S) m m') (hr : r ∈ S) :
    Kept (spacePages m.word r) m m' := kept.mono (spacePages_le hr)

theorem Kept.allPages_eq (kept : Kept (allPages m.word S) m m') :
    allPages m'.word S = allPages m.word S :=
  sum_congr rfl fun _ hr => (kept.space hr).spacePages_eq

theorem Kept.subset (kept : Kept (allPages w S) m m') (sub : T ⊆ S) :
    Kept (allPages w T) m m' := kept.mono (sum_le_sum_of_subset sub)

theorem Kept.allPages_trans (kept : Kept (allPages m.word S) m m')
    (kept' : Kept (allPages m'.word S) m' m'') : Kept (allPages m.word S) m m'' := by
  rw [kept.allPages_eq] at kept'
  exact kept.trans kept'

end Maps

namespace Spaces

section

variable (sp : Spaces k m S X)

include sp

theorem congr (kept : Kept (allPages m.word S) m m') (holds : Holds k m' (Y + allPages m.word S)) :
    Spaces k m' S Y := by
  refine ⟨?_, fun r hr => ?_, fun r hr v e he => ?_⟩
  · rwa [kept.allPages_eq]
  · rw [(kept.space hr).mapOf_eq]
    exact (sp.tree r hr).congr (kept.space hr).table
  · rw [(kept.space hr).mapOf_eq] at he
    exact sp.leaf r hr v e he

theorem perm (same : Y = X) : Spaces k m S Y := same ▸ sp
theorem focus (hr : r ∈ S) :
    User k m (X + allPages m.word (S.erase r)) r (mapOf m.word r) := by
  refine ⟨⟨sp.tree r hr, ?_⟩, sp.leaf r hr⟩
  have holds := sp.holds
  rw [allPages_erase hr, spacePages] at holds
  refine holds.perm ?_
  abel

theorem drop (hr : r ∈ S) :
    Spaces k m (S.erase r) (X + spacePages m.word r) := by
  refine ⟨?_, fun r' hr' => sp.tree r' (Finset.mem_of_mem_erase hr'),
    fun r' hr' => sp.leaf r' (Finset.mem_of_mem_erase hr')⟩
  have holds := sp.holds
  rwa [allPages_erase hr, ← add_assoc] at holds

theorem add (kept : Kept (allPages m.word S) m m') (u : User k m' (Y + allPages m.word S) r g) :
    r ∉ S ∧ Spaces k m' (insert r S) Y ∧ mapOf m'.word r = g := by
  have map := u.table.toTree.mapOf_eq
  have out : r ∉ S := by
    intro hr
    refine u.table.not_mem ?_ (Radix.mem_nodes_self (F := fmt) (w := m'.word) (l := 2) (a := r))
    exact mem_add.mpr (.inl (mem_add.mpr (.inr (mem_of_le
      (spacePages_le hr) root_mem_spacePages))))
  have others : ∀ r' ∈ S, mapOf m'.word r' = mapOf m.word r' := fun r' hr' =>
    (kept.space hr').mapOf_eq
  refine ⟨out, ⟨?_, fun r' hr' => ?_, fun r' hr' v e he => ?_⟩, map⟩
  · rw [allPages_insert out, kept.allPages_eq, spacePages, map]
    refine u.table.holds.perm ?_
    abel
  · rcases mem_insert.mp hr' with rfl | hr'
    · rw [map]
      exact u.table.toTree
    · rw [others r' hr']
      exact (sp.tree r' hr').congr (kept.space hr').table
  · rcases mem_insert.mp hr' with rfl | hr'
    · rw [map] at he
      exact u.leaf v e he
    · rw [others r' hr'] at he
      exact sp.leaf r' hr' v e he

theorem put (hr : r ∈ S) (kept : Kept (X + allPages m.word (S.erase r)) m m')
    (u : User k m' (Y + allPages m.word (S.erase r)) r g) :
    Spaces k m' S Y ∧ mapOf m'.word r = g := by
  have others : Kept (allPages m.word (S.erase r)) m m' := kept.mono (Multiset.le_add_left ..)
  obtain ⟨-, sp', map⟩ := (sp.drop hr).add others u
  rw [Finset.insert_erase hr] at sp'
  exact ⟨sp', map⟩

theorem free (hr : r ∈ S) (kept : Kept (X + allPages m.word (S.erase r)) m m')
    (holds : Holds k m' (Y + allPages m.word (S.erase r))) : Spaces k m' (S.erase r) Y :=
  (sp.drop hr).congr (kept.mono (Multiset.le_add_left ..)) holds

theorem not_mem (hx : x ∈ X) : x ∉ allPages m.word S :=
  Multiset.disjoint_left.mp (Multiset.nodup_add.mp sp.holds.held_nodup).2.2 hx

theorem write (hx : x ∈ X) (v : Page) :
    Spaces k (m.setPage x v) S X ∧ Kept (allPages m.word S) m (m.setPage x v) := by
  have kept : Kept (allPages m.word S) m (m.setPage x v) := by
    intro y hy
    refine Mem.setPage_of_ne ?_
    rintro rfl
    exact sp.not_mem hx hy
  exact ⟨sp.congr kept ⟨sp.holds.part, sp.holds.once⟩, kept⟩

theorem wp_kalloc (fail : Q none m)
    (ok : ∀ x m', Spaces k m' S (x ::ₘ X) → Kept (X + allPages m.word S) m m' → Q (some x) m') :
    wp kalloc E Q m := by
  refine Vm.wp_kalloc sp.holds (fun _ => fail) fun x fresh m' holds same => ?_
  have kept : Kept (X + allPages m.word S) m m' := by
    intro y hy
    refine same y ?_
    rintro rfl
    exact fresh hy
  refine ok x m' (sp.congr (kept.mono (Multiset.le_add_left ..)) ?_) kept
  rwa [Multiset.cons_add]

end

theorem wp_kfree (sp : Spaces k m S (x ::ₘ X))
    (next : ∀ m', Spaces k m' S X → Kept (X + allPages m.word S) m m' → Q () m') :
    wp (kfree k x) E Q m := by
  have holds := sp.holds
  rw [cons_add] at holds
  refine Vm.wp_kfree holds fun m' holds' same => ?_
  have kept : Kept (X + allPages m.word S) m m' := by
    intro y hy
    refine same y ?_
    rintro rfl
    exact (Multiset.nodup_cons.mp holds.held_nodup).1 hy
  exact next m' (sp.congr (kept.mono (Multiset.le_add_left ..)) holds') kept

end Spaces

end Xv6.Vm
