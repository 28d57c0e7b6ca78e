import Xv6.Vm.Table

/-! User address spaces: a page table with the physical pages that it maps below `TRAPFRAME`, and
what the functions of `kernel/vm.c` do to it. -/

namespace Xv6.Vm

open Wp Function Multiset Option

open UInt64 (lt_iff_toNat_lt le_iff_toNat_le toNat_or toNat_and toNat_inj toNat_div toNat_add)

/-- The page numbers of `TRAPFRAME` and `TRAMPOLINE`. -/
def trapframePn : Nat := 67108862

def trampolinePn : Nat := 67108863

theorem trapframePn_eq : trapframePn = 67108862 := rfl

theorem trampolinePn_eq : trampolinePn = 67108863 := rfl

theorem trapframeVa_toNat : trapframeVa.toNat = 67108862 * 4096 := by decide

theorem trapframe_page : trapframeVa.toNat = trapframePn * 4096 := by decide

theorem trampoline_page : trampolineVa.toNat = trampolinePn * 4096 := by decide

/-- The number of pages of `[0, PGROUNDUP(sz))`. -/
def pageCount (sz : UInt64) : Nat := (sz.toNat + 4095) / 4096

/-- The physical pages of the user mappings. -/
def Map.user (f : Map) : Multiset Addr := f.pages 0 trapframePn

/-- The user pages that are mapped are the first `n`. -/
def Map.Covers (f : Map) (n : Nat) : Prop := ∀ v < trapframePn, f v ≠ none ↔ v < n

/-- The pages from `lo` to `hi` have come to the map `f`. -/
structure Map.Grown (f g : Map) (lo hi : Nat) : Prop where
  same : ∀ v, ¬(lo ≤ v ∧ v < hi) → g v = f v
  before : ∀ v, lo ≤ v → v < hi → f v = none
  after : ∀ v, lo ≤ v → v < hi → g v ≠ none

/-- The pages from `lo` to `hi` are filled with zeros and have the flags `perm`. -/
def Map.Fresh (g : Map) (m : Mem) (perm : UInt64) (lo hi : Nat) : Prop :=
  ∀ v e, lo ≤ v → v < hi → g v = some e → m.word (pte2pa e) = (fun _ => 0) ∧ pteFlags e = perm

variable {f g : Map} {lo n v : Nat} {e : UInt64}

section Maps

theorem Map.pages_split (low : lo ≤ v) (high : v < lo + n) :
    f.pages lo n = ((f v).elim 0 fun e => {pte2pa e}) +
      Map.pages (update f v none) lo n := by
  have mem : v ∈ Finset.Ico lo (lo + n) := Finset.mem_Ico.mpr ⟨low, high⟩
  rw [Map.pages, Map.pages, ← Finset.add_sum_erase _ _ mem, ← Finset.add_sum_erase _ _ mem,
    update_self, elim_none, zero_add]
  congr 1
  refine Finset.sum_congr rfl fun u hu => ?_
  rw [update_of_ne (Finset.ne_of_mem_erase hu)]

theorem Map.user_congr (h : ∀ v < trapframePn, g v = f v) : g.user = f.user :=
  Map.pages_congr fun v _ hv => h v (by omega)

theorem Map.user_update (low : v < trapframePn) (free : f v = none) :
    Map.user (update f v (some e)) = pte2pa e ::ₘ f.user := by
  have back : update (update f v (some e)) v none = f := by
    rw [update_idem]
    exact update_eq_self_iff.mpr free.symm
  rw [Map.user, Map.pages_split (Nat.zero_le v) (by omega), back, update_self,
    elim_some, singleton_add, Map.user]

theorem Map.user_update_high (high : trapframePn ≤ v) {e : Option UInt64} :
    Map.user (update f v e) = f.user :=
  Map.user_congr fun u hu => update_of_ne (by omega) ..

theorem Map.user_erase (h : lo + n ≤ trapframePn) :
    f.user = f.pages lo n + (f.erase lo n).user := by
  induction n generalizing lo f with
  | zero => simp
  | succ n ih =>
    have here : f.user = ((f lo).elim 0 fun e => {pte2pa e}) +
        Map.user (update f lo none) :=
      Map.pages_split (Nat.zero_le lo) (by omega)
    have rest : Map.pages (update f lo none) (lo + 1) n = f.pages (lo + 1) n :=
      Map.pages_congr fun v hv _ => update_of_ne (by omega) ..
    have tail := ih (f := update f lo none) (show lo + 1 + n ≤ trapframePn by omega)
    rw [here, tail, rest, ← add_assoc, ← Map.pages_succ, Map.erase_succ]

theorem Map.mem_user (low : v < trapframePn) (h : f v = some e) : pte2pa e ∈ f.user := by
  rw [Map.user, Map.pages_split (Nat.zero_le v) (by omega), h]
  exact mem_add.mpr (.inl (mem_singleton_self _))

theorem Map.Covers.card_user (h : f.Covers n) (le : n ≤ trapframePn) :
    Multiset.card f.user = n := by
  have one : ∀ v ∈ Finset.Ico 0 (0 + trapframePn),
      Multiset.card ((f v).elim 0 fun e => ({pte2pa e} : Multiset Addr)) = if v < n then 1 else 0 := by
    intro v hv
    have := h v (by simpa using hv)
    cases hf : f v with
    | none => simp_all
    | some e => simp_all
  rw [Map.user, Map.pages, card_sum, Finset.sum_congr rfl one, Finset.sum_ite,
    Finset.sum_const_zero, add_zero, Finset.sum_const, smul_eq_mul, mul_one]
  have : {v ∈ Finset.Ico 0 (0 + trapframePn) | v < n} = Finset.range n := by
    ext v
    simp
    omega
  rw [this, Finset.card_range]

theorem Map.Grown.refl : f.Grown f lo lo := ⟨fun _ _ => rfl, by omega, by omega⟩

theorem Map.Fresh.refl : g.Fresh m perm lo lo := fun _ _ _ _ => by omega

theorem Map.Grown.erase (h : f.Grown g lo hi) : g.erase lo (hi - lo) = f := by
  funext v
  by_cases hv : lo ≤ v ∧ v < hi
  · rw [Map.erase, if_pos (by omega), h.before v hv.1 hv.2]
  · rw [Map.erase, if_neg (by omega), h.same v hv]

theorem Map.Grown.update (h : f.Grown g lo hi) (le : lo ≤ hi) (free : g hi = none) :
    f.Grown (update g hi (some e)) lo (hi + 1) where
  same v hv := by
    rw [update_of_ne (by omega)]
    exact h.same v (by omega)
  before v h1 h2 := by
    by_cases hv : v = hi
    · rw [hv, ← h.same hi (by omega), free]
    · exact h.before v h1 (by omega)
  after v h1 h2 := by
    by_cases hv : v = hi
    · rw [hv, update_self]
      exact some_ne_none e
    · rw [update_of_ne hv]
      exact h.after v h1 (by omega)

theorem Map.Grown.covers (h : f.Grown g lo hi) (le : lo ≤ hi) (cov : f.Covers lo) :
    g.Covers hi := by
  intro v hv
  by_cases inside : lo ≤ v ∧ v < hi
  · exact iff_of_true (h.after v inside.1 inside.2) inside.2
  · rw [h.same v inside, cov v hv]
    omega

end Maps

-- the sum over millions of page numbers is not to be unfolded
attribute [irreducible] Map.user

variable (k) in
/-- An address space: its page-table and user pages and the pages `R` are held, and every leaf is
readable. -/
structure User (m : Mem) (R : Multiset Addr) (pt : Addr) (f : Map) : Prop where
  table : Table k m (R + f.user) pt f
  leaf : ∀ v e, f v = some e → e &&& pteR ≠ 0

theorem leaf_flags (h : e &&& pteR ≠ 0) : pteFlags e ≠ pteV := by
  rw [and_flags (by decide)] at h
  intro flags
  rw [flags] at h
  exact h (by decide)

theorem pageCount_eq (h : sz.toNat ≤ 2 ^ 64 - 4096) :
    (pgroundup sz).toNat = pageCount sz * 4096 := pgroundup_toNat h

theorem asInt_small {x : UInt64} (h : x.toNat < 2 ^ 31) : asInt x = x := by
  have low : x.toNat % 2 ^ 32 = x.toNat := by omega
  rw [asInt, low, if_pos h, UInt64.ofNat_toNat]

theorem User.wp_uvmunmap (u : User k m R pt f) (first : va.toNat = lo * 4096)
    (count : np.toNat = n) (fits : lo + n ≤ trapframePn)
    (err : (∀ v, lo ≤ v → v < lo + n → f v ≠ none) ∨ ∀ e, E e)
    (next : ∀ m', User k m' R pt (f.erase lo n) → Kept (R + (f.erase lo n).user) m m' → Q () m') :
    wp (uvmunmap k pt va np true) E Q m := by
  have visit : visits va np = n := by
    rw [trapframePn_eq] at fits
    rw [visits_eq (by omega), count]
  have t : Table k m (f.freed true lo (visits va np) + (R + (f.erase lo n).user)) pt f := by
    have t := u.table
    rw [Map.user_erase fits, ← add_assoc, add_comm R, add_assoc] at t
    rwa [visit]
  refine Vm.wp_uvmunmap t first (err.imp (fun all v h1 h2 => ?_) id)
    fun m' t' kept => next m' ?_ kept
  · rw [visit] at h2
    obtain ⟨e, he⟩ := ne_none_iff_exists'.mp (all v h1 h2)
    exact ⟨e, he, leaf_flags (u.leaf v e he)⟩
  · rw [visit] at t'
    refine ⟨t', fun v e he => u.leaf v e ?_⟩
    rw [Map.erase] at he
    split at he
    · cases he
    · exact he

section Pages

variable {Q : Option Addr → Mem → Prop}

theorem User.congr (u : User k m R pt f) (same : ∀ y ∈ tablePages m.word pt, m'.word y = m.word y)
    (holds : Holds k m' (S + f.user + tablePages m.word pt)) : User k m' S pt f :=
  ⟨u.table.congr same holds, u.leaf⟩

theorem User.wp_kalloc (u : User k m R pt f) (fail : m.freelist = [] → Q none m)
    (ok : ∀ x m', User k m' (x ::ₘ R) pt f → Kept (R + f.user) m m' → Q (some x) m') :
    wp kalloc E Q m := by
  refine Vm.wp_kalloc u.table.holds fail fun x fresh m' h' same => ok x m' (u.congr ?_ ?_) ?_
  · rintro y hy
    refine same y ?_
    rintro rfl
    exact fresh (mem_add.mpr (.inr hy))
  · rwa [cons_add, cons_add]
  · intro y hy
    refine same y ?_
    rintro rfl
    exact fresh (mem_add.mpr (.inl hy))

section

variable (u : User k m (x ::ₘ R) pt f)

include u

theorem User.not_mem : x ∉ R + f.user + tablePages m.word pt := by
  have nd := u.table.holds.held_nodup
  rw [cons_add, cons_add] at nd
  exact (nodup_cons.mp nd).1

theorem User.setPage (v : Page) :
    User k (m.setPage x v) (x ::ₘ R) pt f ∧ Kept (R + f.user) m (m.setPage x v) := by
  have out : ∀ y ∈ R + f.user + tablePages m.word pt, y ≠ x := by
    rintro y hy rfl
    exact u.not_mem hy
  refine ⟨u.congr (fun y hy => Mem.setPage_of_ne (out y (mem_add.mpr (.inr hy))))
    ⟨u.table.holds.part, u.table.holds.once⟩, fun y hy => Mem.setPage_of_ne (out y ?_)⟩
  exact mem_add.mpr (.inl hy)

theorem User.wp_kfree {Q : Unit → Mem → Prop}
    (next : ∀ m', User k m' R pt f → Kept (R + f.user) m m' → Q () m') :
    wp (kfree k x) E Q m := by
  have h := u.table.holds
  rw [cons_add, cons_add] at h
  have out : ∀ y ∈ R + f.user + tablePages m.word pt, y ≠ x := by
    rintro y hy rfl
    exact u.not_mem hy
  refine Vm.wp_kfree h fun m' h' same => next m' (u.congr (fun y hy => same y ?_) h')
    fun y hy => same y (out y ?_)
  · exact out y (mem_add.mpr (.inr hy))
  · exact mem_add.mpr (.inl hy)

theorem User.wp_mappages {Q : Bool → Mem → Prop} (first : va.toNat = v * 4096)
    (bound : v ≤ trapframePn) (low : f v = none → v < trapframePn) (flags : perm.toNat < 1024)
    (readable : perm &&& pteR ≠ 0) (remap : f v = none ∨ E .mappagesRemap)
    (fail : ∀ m', User k m' (x ::ₘ R) pt f → Kept (x ::ₘ (R + f.user)) m m' → Q false m')
    (ok : f v = none → ∀ m', User k m' R pt
      (update f v (some (pa2pte x ||| (perm ||| pteV)))) →
      Kept (x ::ₘ (R + f.user)) m m' → Q true m') :
    wp (mappages pt va pgsize x perm) E Q m := by
  have page : va.toNat / 4096 = v := by omega
  have high : va < maxva := by
    rw [trapframePn_eq] at bound
    rw [lt_iff_toNat_lt, maxva_toNat]
    omega
  have keep : ∀ {m'}, Kept (x ::ₘ R + f.user) m m' → Kept (x ::ₘ (R + f.user)) m m' := fun kept => by
    rwa [cons_add] at kept
  refine Vm.wp_mappages u.table (by omega) high (fun mapped => ?_)
    (fun m' t' kept _ => fail m' ⟨t', u.leaf⟩ (keep kept)) fun free m' t' kept => ?_
  · rw [page] at mapped
    exact remap.resolve_left mapped
  have fits : (perm ||| pteV).toNat < 1024 := by
    rw [toNat_or]
    exact Nat.or_lt_two_pow (n := 10) flags (by decide)
  obtain ⟨aligned, small⟩ := u.table.holds.small (x := x) (by simp)
  rw [page] at free t'
  rw [UInt64.or_assoc] at t'
  refine ok free m' ⟨?_, fun w e he => ?_⟩ (keep kept)
  · rwa [Map.user_update (low free) free, pte2pa_entry aligned small fits, add_cons,
      ← cons_add]
  · by_cases hw : w = v
    · rw [hw, update_self, Option.some.injEq] at he
      rw [← he, and_flags (by decide), pteFlags_entry fits]
      intro zero
      refine readable ?_
      have := congrArg UInt64.toNat zero
      rw [toNat_and, toNat_or, Nat.and_comm, Nat.and_or_distrib_left] at this
      apply toNat_inj.mp
      rw [toNat_and, Nat.and_comm]
      exact (Nat.or_eq_zero_iff.mp this).1
    · rw [update_of_ne hw] at he
      exact u.leaf w e he

end

end Pages

section Dealloc

variable {Q : UInt64 → Mem → Prop}

theorem wp_uvmdealloc (u : User k m R pt f) (small : oldsz ≤ trapframeVa)
    (err : (∀ v, pageCount newsz ≤ v → v < pageCount oldsz → f v ≠ none) ∨ ∀ e, E e)
    (next : ∀ r m', r = (if oldsz ≤ newsz then oldsz else newsz) →
      User k m' R pt (f.erase (pageCount r) (pageCount oldsz - pageCount r)) →
      Kept (R + (f.erase (pageCount r) (pageCount oldsz - pageCount r)).user) m m' → Q r m') :
    wp (uvmdealloc k pt oldsz newsz) E Q m := by
  rw [le_iff_toNat_le, trapframeVa_toNat] at small
  refine wp_ite (fun le => ?_) fun gt => ?_
  · refine next oldsz m (if_pos le).symm ?_ .refl
    rwa [Nat.sub_self, Map.erase_zero]
  have lt : newsz.toNat < oldsz.toNat := lt_iff_toNat_lt.mp (UInt64.not_le.mp gt)
  have up : (pgroundup oldsz).toNat = pageCount oldsz * 4096 := pageCount_eq (by omega)
  have up' : (pgroundup newsz).toNat = pageCount newsz * 4096 := pageCount_eq (by omega)
  have top : pageCount oldsz ≤ 67108862 := by
    rw [pageCount]
    omega
  refine wp_ite (fun some => ?_) fun none => ?_
  · have some := lt_iff_toNat_lt.mp some
    generalize hn : (pgroundup oldsz - pgroundup newsz) / pgsize = np
    have count : np.toNat = pageCount oldsz - pageCount newsz := by
      rw [← hn, toNat_div, UInt64.toNat_sub_of_le _ _ (le_iff_toNat_le.mpr some.le),
        up, up', show pgsize.toNat = 4096 from rfl]
      omega
    rw [asInt_small (by omega), wp_bind]
    refine u.wp_uvmunmap up' count (by rw [trapframePn_eq]; omega)
      (err.imp (fun all v h1 h2 => all v h1 (by omega)) id) fun m' u' kept => ?_
    exact next newsz m' (if_neg gt).symm u' kept
  · have none := mt lt_iff_toNat_lt.mpr none
    refine next newsz m (if_neg gt).symm ?_ .refl
    rwa [show pageCount oldsz - pageCount newsz = 0 by omega, Map.erase_zero]

theorem pageCount_aligned (h : va.toNat = n * 4096) : pageCount va = n := by
  rw [pageCount]
  omega

theorem User.wp_undo (u : User k m R pt g) (grown : f.Grown g lo hi) (last : a.toNat = hi * 4096)
    (first : old.toNat = lo * 4096) (le : lo ≤ hi) (top : hi ≤ trapframePn)
    (next : ∀ r m', User k m' R pt f → Kept (R + f.user) m m' → Q r m') :
    wp (uvmdealloc k pt a old) E Q m := by
  have small : a ≤ trapframeVa := by
    rw [trapframePn_eq] at top
    rw [le_iff_toNat_le, trapframeVa_toNat]
    omega
  rw [← pageCount_aligned last, ← pageCount_aligned first] at grown
  refine wp_uvmdealloc u small (.inl grown.after) fun r m' hr u' kept => ?_
  have back : pageCount r = pageCount old := by
    rw [hr]
    split
    next same =>
      rw [le_iff_toNat_le] at same
      rw [pageCount, pageCount, show a.toNat = old.toNat by omega]
    next => rfl
  rw [back, grown.erase] at u' kept
  exact next r m' u' kept

end Dealloc

section Alloc

theorem User.covers_le (u : User k m R pt f) (cov : f.Covers n) (le : n ≤ trapframePn) :
    n ≤ 2 ^ 15 := by
  have part := congrArg Multiset.card u.table.holds.part
  have len := pages_length (k := k)
  rw [card_add, card_add, card_add, cov.card_user le,
    coe_card, coe_card] at part
  omega

variable {xperm perm a old : UInt64} {fuel : Nat} {Q : UInt64 → Mem → Prop}

theorem alloc_perm (h : xperm.toNat < 1024) : (pteR ||| pteU ||| xperm).toNat < 1024 ∧
    (pteR ||| pteU ||| xperm) &&& pteR ≠ 0 := by
  constructor
  · rw [toNat_or]
    exact Nat.or_lt_two_pow (n := 10) (by decide) h
  · intro zero
    have := congrArg UInt64.toNat zero
    rw [toNat_and, toNat_or, Nat.and_comm, Nat.and_or_distrib_left] at this
    exact absurd (Nat.or_eq_zero_iff.mp this).1 (by decide)

theorem Map.Grown.user_le (h : f.Grown g lo hi) : f.user ≤ g.user := by
  unfold Map.user Map.pages
  refine Finset.sum_le_sum fun v _ => ?_
  by_cases inside : lo ≤ v ∧ v < hi
  · rw [h.before v inside.1 inside.2]
    exact zero_le _
  · rw [h.same v inside]

theorem Map.Fresh.update (fresh : g.Fresh m perm lo hi) (top : hi < trapframePn)
    (kept : Kept g.user m m') (zero : m'.word (pte2pa e) = fun _ => 0) (flags : pteFlags e = perm) :
    Map.Fresh (update g hi (some e)) m' perm lo (hi + 1) := by
  intro v e' low high at_
  by_cases hv : v = hi
  · rw [hv, update_self, Option.some.injEq] at at_
    rw [← at_]
    exact ⟨zero, flags⟩
  · rw [update_of_ne hv] at at_
    obtain ⟨zeros, same⟩ := fresh v e' low (by omega) at_
    exact ⟨(kept _ (Map.mem_user (by omega) at_)).trans zeros, same⟩

/-- The loop of `uvmalloc` from the page `hi` on: the pages up to `newsz` come to the map, or none
do. -/
theorem wp_uvmallocLoop (u : User k m R pt g) (grown : f.Grown g lo hi) (le : lo ≤ hi)
    (fresh : g.Fresh m (pteR ||| pteU ||| xperm ||| pteV) lo hi)
    (mapped : f trapframePn ≠ none) (top : hi ≤ trapframePn) (first : old.toNat = lo * 4096)
    (here : a.toNat = hi * 4096) (last : hi ≤ pageCount newsz) (fits : pageCount newsz ≤ hi + fuel)
    (perm : xperm.toNat < 1024) (err : f.Covers lo ∨ ∀ e, E e) :
    wp (uvmallocLoop k pt old newsz xperm fuel a) E (fun r m' => Kept (R + f.user) m m' ∧
      (r = 0 ∧ User k m' R pt f ∨ r = newsz ∧ pageCount newsz ≤ trapframePn ∧
        ∃ g', User k m' R pt g' ∧ f.Grown g' lo (pageCount newsz) ∧
          g'.Fresh m' (pteR ||| pteU ||| xperm ||| pteV) lo (pageCount newsz))) m := by
  induction fuel generalizing m g hi a with
  | zero =>
    obtain rfl : hi = pageCount newsz := by omega
    exact ⟨.refl, .inr ⟨rfl, top, g, u, grown, fresh⟩⟩
  | succ fuel ih =>
    refine wp_ite (fun lt => ?_) fun ge => ?_
    swap
    · rw [lt_iff_toNat_lt] at ge
      obtain rfl : hi = pageCount newsz := by
        rw [pageCount] at *
        omega
      exact ⟨.refl, .inr ⟨rfl, top, g, u, grown, fresh⟩⟩
    have old_le : R + f.user ≤ R + g.user := Multiset.add_le_add_iff_left.mpr grown.user_le
    have undo : ∀ {m1}, User k m1 R pt g → Kept (R + f.user) m m1 →
        wp (do let _ ← uvmdealloc k pt a old; return 0) E (fun r m' => Kept (R + f.user) m m' ∧
          (r = 0 ∧ User k m' R pt f ∨ r = newsz ∧ pageCount newsz ≤ trapframePn ∧
            ∃ g', User k m' R pt g' ∧ f.Grown g' lo (pageCount newsz) ∧
              g'.Fresh m' (pteR ||| pteU ||| xperm ||| pteV) lo (pageCount newsz))) m1 :=
      fun u1 kept => .seq (u1.wp_undo grown here first le top fun _ m' u' kept' =>
        ⟨kept.trans kept', .inl ⟨rfl, u'⟩⟩)
    refine .seq (u.wp_kalloc (fun _ => undo u .refl) fun x m1 u1 kept1 => ?_)
    simp only [wp_bind, memset, wp_modify]
    obtain ⟨u2, kept2⟩ := u1.setPage fun _ => 0
    have kept2 := kept1.trans kept2
    have zero : (m1.setPage x fun _ => 0).word x = fun _ => 0 := Mem.setPage_self
    have outside : g hi = f hi := grown.same hi (by omega)
    -- the page of `TRAPFRAME` is mapped, so the loop does not get past it
    have low : g hi = none → hi < trapframePn := fun free =>
      lt_of_le_of_ne top fun e => mapped (e ▸ outside ▸ free)
    have room : g hi = none ∨ E .mappagesRemap := by
      refine err.imp (fun cov => ?_) fun all => all _
      have := u.covers_le (grown.covers le cov) top
      by_contra used
      rw [outside] at used
      have := (cov hi (by rw [trapframePn_eq]; omega)).mp used
      omega
    obtain ⟨flags, readable⟩ := alloc_perm perm
    obtain ⟨aligned, small⟩ := u2.table.holds.small (x := x) (by simp)
    refine u2.wp_mappages here top low flags readable room (fun m3 u3 kept3 => ?_)
      fun free m3 u3 kept3 => ?_
    · refine .seq (u3.wp_kfree fun m4 u4 kept4 => ?_)
      exact undo u4 (((kept2.trans kept3.tail).trans kept4).mono old_le)
    · have next : (a + pgsize).toNat = (hi + 1) * 4096 := by
        have := low free
        rw [trapframePn_eq] at this
        rw [toNat_add, show pgsize.toNat = 4096 from rfl]
        omega
      have more : hi + 1 ≤ pageCount newsz := by
        rw [lt_iff_toNat_lt] at lt
        rw [pageCount]
        omega
      have fits' : (pteR ||| pteU ||| xperm ||| pteV).toNat < 1024 := by
        rw [toNat_or]
        exact Nat.or_lt_two_pow (n := 10) flags (by decide)
      have kept3' := kept2.trans kept3.tail
      have fresh' := fresh.update (e := pa2pte x ||| (pteR ||| pteU ||| xperm ||| pteV)) (low free)
        (kept3'.mono (Multiset.le_add_left ..))
        (by rw [pte2pa_entry aligned small fits', kept3 x (by simp), zero]) (pteFlags_entry fits')
      refine (ih u3 (grown.update le free) (by omega) fresh' (low free) next more (by omega)).mono
        (fun r m' h => ⟨(kept3'.mono old_le).trans h.1, h.2⟩) fun _ => id

/-- `uvmalloc` maps new pages up to the new size, which then lies below `TRAPFRAME`, or none. -/
theorem wp_uvmalloc (u : User k m R pt f) (mapped : f trapframePn ≠ none)
    (small : oldsz ≤ trapframeVa) (perm : xperm.toNat < 1024)
    (err : f.Covers (pageCount oldsz) ∨ ∀ e, E e)
    (fail : ∀ m', User k m' R pt f → Kept (R + f.user) m m' → Q 0 m')
    (ok : ∀ r g m', r ≠ 0 → r = (if newsz < oldsz then oldsz else newsz) → r ≤ trapframeVa →
      User k m' R pt g → f.Grown g (pageCount oldsz) (pageCount r) →
      g.Fresh m' (pteR ||| pteU ||| xperm ||| pteV) (pageCount oldsz) (pageCount r) →
      Kept (R + f.user) m m' → Q r m') :
    wp (uvmalloc k pt oldsz newsz xperm) E Q m := by
  have up : (pgroundup oldsz).toNat = pageCount oldsz * 4096 := by
    rw [le_iff_toNat_le, trapframeVa_toNat] at small
    exact pageCount_eq (by omega)
  have top : pageCount oldsz ≤ trapframePn := by
    rw [le_iff_toNat_le, trapframeVa_toNat] at small
    rw [pageCount, trapframePn_eq]
    omega
  refine wp_ite (fun lt => ?_) fun ge => ?_
  · refine ok oldsz f m ?_ (if_pos lt).symm small u .refl .refl .refl
    rintro rfl
    exact UInt64.not_lt_zero lt
  have le := le_iff_toNat_le.mp (UInt64.not_lt.mp ge)
  have last : pageCount oldsz ≤ pageCount newsz := by
    rw [pageCount, pageCount]
    omega
  have fits : pageCount newsz ≤ pageCount oldsz + (newsz.toNat / 4096 + 1) := by
    rw [pageCount, pageCount]
    omega
  refine (wp_uvmallocLoop u .refl le_rfl .refl mapped top up up last fits perm err).mono
    (fun r m' ⟨kept, h⟩ => ?_) fun _ => id
  rcases h with ⟨rfl, u'⟩ | ⟨rfl, small', g, u', grown, fresh⟩
  · exact fail m' u' kept
  · by_cases zero : r = 0
    · subst zero
      have none : f.Grown g (pageCount oldsz) (pageCount oldsz) := by
        rwa [show pageCount 0 = pageCount oldsz from le_antisymm (by simp [pageCount]) last] at grown
      have same : g = f := by
        rw [← none.erase, Nat.sub_self, Map.erase_zero]
      exact fail m' (same ▸ u') kept
    · refine ok r g m' zero (if_neg ge).symm ?_ u' grown fresh kept
      rw [trapframePn_eq] at small'
      rw [le_iff_toNat_le, trapframeVa_toNat]
      rw [pageCount] at small'
      omega

end Alloc

section Copy

variable {old new : Addr} {h : Map} {i : UInt64} {fuel : Nat} {Q : Bool → Mem → Prop}

theorem pteFlags_lt : (pteFlags e).toNat < 1024 := by
  rw [pteFlags_toNat]
  omega

/-- The page `v` of the map `h` is a copy of that of `f`, with the same flags. -/
def Copied (m : Mem) (f h : Map) (v : Nat) : Prop :=
  ∃ e e', f v = some e ∧ h v = some e' ∧ pteFlags e' = pteFlags e ∧
    m.word (pte2pa e') = m.word (pte2pa e)

theorem Copied.kept (c : Copied m f h v) (low : v < trapframePn) (kept : Kept (R + h.user) m m')
    (pages : f.user ≤ R) : Copied m' f h v := by
  obtain ⟨e, e', he, he', flags, words⟩ := c
  refine ⟨e, e', he, he', flags, ?_⟩
  rw [kept _ (mem_add.mpr (.inr (Map.mem_user low he'))),
    kept _ (mem_add.mpr (.inl (mem_of_le pages (Map.mem_user low he)))), words]

theorem flags_or_valid (h : e &&& pteV ≠ 0) : pteFlags e ||| pteV = pteFlags e := by
  have bit : e &&& pteV = pteV := by
    have low : (e &&& pteV).toNat = e.toNat % 2 := by
      rw [toNat_and]
      exact Nat.and_two_pow_sub_one_eq_mod _ 1
    have odd : (e &&& pteV).toNat ≠ 0 := fun zero => h (toNat_inj.mp zero)
    apply toNat_inj.mp
    rw [low] at odd ⊢
    show e.toNat % 2 = 1
    omega
  have bit' : pteFlags e &&& pteV = pteV := by rw [← and_flags (by decide), bit]
  calc pteFlags e ||| pteV = pteFlags e ||| (pteFlags e &&& pteV) := by rw [bit']
    _ = pteFlags e := by
      apply toNat_inj.mp
      apply Nat.eq_of_testBit_eq
      intro j
      rw [toNat_or, toNat_and, Nat.testBit_or, Nat.testBit_and]
      cases (pteFlags e).toNat.testBit j <;> rfl

/-- The loop of `uvmcopy` from the page `hi` on, when the new table has no user pages but those that
were copied. -/
theorem wp_uvmcopyLoop (t : Tree m.word old f) (held : tablePages m.word old ≤ R)
    (pages : f.user ≤ R) (leaf : ∀ v e, f v = some e → e &&& pteR ≠ 0) (u : User k m R new h)
    (grown : g.Grown h 0 hi) (copied : ∀ v < hi, Copied m f h v)
    (free : ∀ v < trapframePn, g v = none) (small : sz ≤ trapframeVa) (here : i.toNat = hi * 4096)
    (last : hi ≤ pageCount sz) (fits : pageCount sz ≤ hi + fuel)
    (err : (∀ v < pageCount sz, f v ≠ none) ∨ ∀ e, E e) :
    wp (uvmcopyLoop k old new sz fuel i) E (fun r m' => Kept R m m' ∧
      ∃ h' hi', User k m' R new h' ∧ g.Grown h' 0 hi' ∧ hi' ≤ trapframePn ∧
        (r = none ∧ hi' = pageCount sz ∧ (∀ v < hi', Copied m' f h' v) ∨
          ∃ i', r = some i' ∧ i'.toNat = hi' * 4096)) m := by
  have top : pageCount sz ≤ trapframePn := by
    rw [le_iff_toNat_le, trapframeVa_toNat] at small
    rw [pageCount, trapframePn_eq]
    omega
  induction fuel generalizing m h hi i with
  | zero =>
    obtain rfl : hi = pageCount sz := by omega
    exact ⟨.refl, h, _, u, grown, top, .inl ⟨rfl, rfl, copied⟩⟩
  | succ fuel ih =>
    refine wp_ite (fun lt => ?_) fun ge => ?_
    swap
    · rw [lt_iff_toNat_lt] at ge
      have done : hi = pageCount sz := by
        rw [pageCount] at *
        omega
      exact ⟨.refl, h, hi, u, grown, by omega, .inl ⟨rfl, done, copied⟩⟩
    have more : hi + 1 ≤ pageCount sz := by
      rw [lt_iff_toNat_lt] at lt
      rw [pageCount]
      omega
    have low : hi < trapframePn := by omega
    have page : i.toNat / 4096 = hi := by omega
    have high : i < maxva := by
      rw [trapframePn_eq] at low
      rw [lt_iff_toNat_lt, maxva_toNat]
      omega
    have present : f hi ≠ none ∨ ∀ e, E e := err.imp (fun all => all hi (by omega)) id
    rw [wp_bind, wp_walk_false high]
    cases hs : Radix.slot fmt m.word (ix i) 2 old with
    | none =>
      refine present.resolve_left (fun ne => ne ?_) _
      rw [← page]
      exact t.of_slot_none high hs
    | some p =>
      have found := t.of_slot_some high hs
      rw [page] at found
      simp only [wp_bind, load, wp_get, wp_pure]
      refine wp_ite (fun invalid => ?_) fun valid => ?_
      · refine present.resolve_left (fun ne => ne ?_) _
        rw [← found]
        simp [fmt, invalid]
      have hf : f hi = some (m.word p.1 p.2) := by simpa [fmt, valid] using found.symm
      generalize m.word p.1 p.2 = v at *
      have stop : ∀ {m1}, User k m1 R new h → Kept R m m1 → wp (return some i : M _) E
          (fun r m' => Kept R m m' ∧ ∃ h' hi', User k m' R new h' ∧ g.Grown h' 0 hi' ∧
            hi' ≤ trapframePn ∧ (r = none ∧ hi' = pageCount sz ∧ (∀ v < hi', Copied m' f h' v) ∨
              ∃ i', r = some i' ∧ i'.toNat = hi' * 4096)) m1 :=
        fun u1 kept => ⟨kept, h, hi, u1, grown, low.le, .inr ⟨i, rfl, here⟩⟩
      refine .seq (u.wp_kalloc (fun _ => stop u .refl) fun x m1 u1 kept1 => ?_)
      simp only [wp_bind, memmove, wp_modify]
      obtain ⟨u2, kept2⟩ := u1.setPage (m1.word (pte2pa v))
      have kept2 := kept1.trans kept2
      have unmapped : h hi = none := by rw [grown.same hi (by omega), free hi low]
      refine u2.wp_mappages here low.le (fun _ => low) pteFlags_lt ?_ (.inl unmapped)
        (fun m3 u3 kept3 => ?_) fun _ m3 u3 kept3 => ?_
      · rw [← and_flags (by decide)]
        exact leaf hi v hf
      · refine .seq (u3.wp_kfree fun m4 u4 kept4 => ?_)
        exact stop u4 ((kept2.left.trans kept3.tail.left).trans kept4.left)
      · have words : m3.word x = m3.word (pte2pa v) := by
          have mem : pte2pa v ∈ R := mem_of_le pages (Map.mem_user low hf)
          have ne : pte2pa v ≠ x := fun same =>
            u1.not_mem (mem_add.mpr (.inl (mem_add.mpr (.inl (same ▸ mem)))))
          rw [kept3 x (mem_cons_self ..), kept3.tail.left _ mem, Mem.setPage_self,
            Mem.setPage_of_ne ne]
        obtain ⟨aligned, fit⟩ := u2.table.holds.small (x := x) (by simp)
        have kept3 := kept2.trans kept3.tail
        have same : ∀ y ∈ tablePages m.word old, m3.word y = m.word y := fun y hy =>
          kept3.left y (mem_of_le held hy)
        have next : (i + pgsize).toNat = (hi + 1) * 4096 := by
          rw [trapframePn_eq] at low
          rw [toNat_add, show pgsize.toNat = 4096 from rfl]
          omega
        refine (ih (t.congr same) ?_ u3 (grown.update (Nat.zero_le hi) unmapped) (fun w hw => ?_)
          next more (by omega)).mono (fun r m' h => ⟨kept3.left.trans h.1, h.2⟩) fun _ => id
        · rwa [tablePages, Radix.nodes_congr same]
        · by_cases last : w = hi
          · rw [last]
            refine ⟨v, _, hf, update_self .., ?_, ?_⟩
            · rw [flags_or_valid valid, pteFlags_entry pteFlags_lt]
            · rw [flags_or_valid valid, pte2pa_entry aligned fit pteFlags_lt]
              exact words
          · obtain ⟨e, e', he, he', rest⟩ := (copied w (by omega)).kept (by omega) kept3 pages
            exact ⟨e, e', he, by rwa [update_of_ne last], rest⟩

theorem wp_uvmcopy (t : Tree m.word old f) (held : tablePages m.word old ≤ R) (pages : f.user ≤ R)
    (leaf : ∀ v e, f v = some e → e &&& pteR ≠ 0) (u : User k m R new g)
    (free : ∀ v < trapframePn, g v = none) (small : sz ≤ trapframeVa)
    (err : (∀ v < pageCount sz, f v ≠ none) ∨ ∀ e, E e)
    (fail : ∀ m', User k m' R new g → Kept R m m' → Q false m')
    (ok : ∀ h m', User k m' R new h → g.Grown h 0 (pageCount sz) →
      (∀ v < pageCount sz, Copied m' f h v) → Kept R m m' → Q true m') :
    wp (uvmcopy k old new sz) E Q m := by
  have fits : pageCount sz ≤ 0 + (sz.toNat / 4096 + 1) := by
    rw [pageCount]
    omega
  refine (wp_uvmcopyLoop t held pages leaf u .refl (by omega) free small (by simp) (Nat.zero_le _)
    fits err).bind fun r m1 ⟨kept, h, hi, u1, grown, top, res⟩ => ?_
  rcases res with ⟨rfl, rfl, copied⟩ | ⟨i, rfl, stop⟩
  · exact ok h m1 u1 grown copied kept
  · have count : (i / pgsize).toNat = hi := by
      rw [toNat_div, show pgsize.toNat = 4096 from rfl]
      omega
    refine .seq (u1.wp_uvmunmap (show (0 : UInt64).toNat = 0 * 4096 from rfl) count
      (by omega) (.inl fun v h1 h2 => ?_) fun m' u' kept' => fail m' ?_ (kept.trans kept'.left))
    · exact grown.after v h1 (by omega)
    · have back := grown.erase
      rw [Nat.sub_zero] at back
      rwa [back] at u'

end Copy

section Free

variable {Q : Unit → Mem → Prop}

theorem Map.user_eq_zero (h : ∀ v < trapframePn, f v = none) : f.user = 0 := by
  have all : f.user = Map.user fun _ => none := Map.user_congr h
  rw [all]
  unfold Map.user Map.pages
  simp

theorem User.leaf_rwx (h : e &&& pteR ≠ 0) : e &&& (pteR ||| pteW ||| pteX) ≠ 0 := by
  intro zero
  have split : e &&& pteR = e &&& (pteR ||| pteW ||| pteX) &&& pteR := by
    rw [UInt64.and_assoc, show (pteR ||| pteW ||| pteX) &&& pteR = pteR by decide]
  rw [zero] at split
  exact h split

theorem User.wp_freewalk (u : User k m R pt f) (err : (∀ v, f v = none) ∨ ∀ e, E e)
    (next : ∀ m', Holds k m' R → Kept R m m' → Q () m') : wp (freewalk k levels pt) E Q m := by
  have bare : Bare E m.word 2 pt := by
    refine ⟨u.table.inner, fun i e he => ?_⟩
    rw [u.table.maps] at he
    refine ⟨User.leaf_rwx (u.leaf _ e he), ?_⟩
    refine err.elim (fun none => ?_) fun all => all _
    rw [none] at he
    cases he
  refine (Vm.wp_freewalk (by decide) u.table.holds bare).mono (fun _ m' h => ?_) fun _ => id
  obtain ⟨holds, kept, clear⟩ := h
  have none : ∀ v < trapframePn, f v = none := by
    intro v hv
    have := clear (ix (UInt64.ofNat (v * 4096)))
    have toNat : (UInt64.ofNat (v * 4096)).toNat = v * 4096 := by
      rw [trapframePn_eq] at hv
      rw [UInt64.toNat_ofNat']
      omega
    have low : UInt64.ofNat (v * 4096) < maxva := by
      rw [trapframePn_eq] at hv
      rw [lt_iff_toNat_lt, maxva_toNat, toNat]
      omega
    rwa [u.table.look low, toNat, Nat.mul_div_cancel _ (by omega)] at this
  rw [Map.user_eq_zero none, add_zero] at holds kept
  exact next m' holds kept

theorem wp_uvmfree (u : User k m R pt f) (low : ∀ v, trapframePn ≤ v → f v = none)
    (small : sz ≤ trapframeVa) (err : f.Covers (pageCount sz) ∨ ∀ e, E e)
    (next : ∀ m', Holds k m' R → Kept R m m' → Q () m') : wp (uvmfree k pt sz) E Q m := by
  have small' := le_iff_toNat_le.mp small
  rw [trapframeVa_toNat] at small'
  have top : pageCount sz ≤ trapframePn := by
    rw [pageCount, trapframePn_eq]
    omega
  have count : (pgroundup sz / pgsize).toNat = pageCount sz := by
    rw [toNat_div, pageCount_eq (by omega), show pgsize.toNat = 4096 from rfl]
    omega
  have walk : ∀ {m1}, User k m1 R pt (f.erase 0 (pageCount sz)) → Kept R m m1 →
      wp (freewalk k levels pt) E Q m1 := by
    intro m1 u1 kept
    refine u1.wp_freewalk (err.imp (fun cov v => ?_) id) fun m' h' kept' =>
      next m' h' (kept.trans kept')
    rw [Map.erase]
    split
    · rfl
    · by_cases hv : v < trapframePn
      · by_contra ne
        have := (cov v hv).mp ne
        omega
      · exact low v (by omega)
  refine wp_ite (fun pos => ?_) fun zero => ?_
  · refine .seq (u.wp_uvmunmap (show (0 : UInt64).toNat = 0 * 4096 from rfl) count (by omega)
      (err.imp (fun cov v _ hv => ?_) id) fun m1 u1 kept => walk u1 kept.left)
    exact (cov v (by omega)).mpr (by omega)
  · have none : pageCount sz = 0 := by
      rw [lt_iff_toNat_lt, show (0 : UInt64).toNat = 0 from rfl] at zero
      rw [pageCount]
      omega
    have same : User k m R pt (f.erase 0 (pageCount sz)) := by rwa [none, Map.erase_zero]
    exact walk same .refl

end Free

section Tops

variable {tf : Addr}

/-- The entries that `proc_pagetable` makes for the trampoline and for a trapframe. -/
def trampolineEntry (k : Symbols) : UInt64 := pa2pte k.trampoline ||| (pteR ||| pteX) ||| pteV

def trapframeEntry (tf : Addr) : UInt64 := pa2pte tf ||| (pteR ||| pteW) ||| pteV

/-- The two highest pages are those of the trampoline and of the trapframe `tf`. -/
structure Top (k : Symbols) (f : Map) (tf : Addr) : Prop where
  trampoline : f trampolinePn = some (trampolineEntry k)
  trapframe : f trapframePn = some (trapframeEntry tf)

theorem pteFlags_trampoline : pteFlags (trampolineEntry k) = pteR ||| pteX ||| pteV := by
  rw [trampolineEntry, UInt64.or_assoc, pteFlags_entry (by decide)]

theorem pteFlags_trapframe : pteFlags (trapframeEntry tf) = pteR ||| pteW ||| pteV := by
  rw [trapframeEntry, UInt64.or_assoc, pteFlags_entry (by decide)]

theorem trampoline_leaf : trampolineEntry k &&& pteR ≠ 0 := by
  rw [and_flags (by decide), pteFlags_trampoline]
  decide

theorem trapframe_leaf : trapframeEntry tf &&& pteR ≠ 0 := by
  rw [and_flags (by decide), pteFlags_trapframe]
  decide

theorem User.update_high (high : trapframePn ≤ v) (leaf : e &&& pteR ≠ 0)
    (hl : ∀ v e, f v = some e → e &&& pteR ≠ 0)
    (t : Table k m (R + f.user) pt (update f v (some e))) :
    User k m R pt (update f v (some e)) := by
  refine ⟨?_, fun w e' he => ?_⟩
  · rwa [Map.user_update_high high]
  · by_cases hw : w = v
    · rw [hw, update_self, Option.some.injEq] at he
      exact he ▸ leaf
    · rw [update_of_ne hw] at he
      exact hl w e' he

theorem User.erase_high (high : trapframePn ≤ v) (hl : ∀ v e, f v = some e → e &&& pteR ≠ 0)
    (t : Table k m (R + f.user) pt (f.erase v 1)) : User k m R pt (f.erase v 1) := by
  have same : (f.erase v 1).user = f.user := Map.user_congr fun w hw => if_neg (by omega)
  refine ⟨by rwa [same], fun w e he => hl w e ?_⟩
  rw [Map.erase] at he
  split at he
  · cases he
  · exact he

theorem User.wp_unmap_high (u : User k m R pt f) (first : va.toNat = v * 4096)
    (high : trapframePn ≤ v) (he : f v = some e)
    (next : ∀ m', User k m' R pt (f.erase v 1) → Kept R m m' → Q () m') :
    wp (uvmunmap k pt va 1 false) E Q m := by
  have bound := u.table.bound v (by simp [he])
  rw [npages_eq] at bound
  have visit : visits va 1 = 1 := by
    rw [visits_eq] <;> rw [show (1 : UInt64).toNat = 1 from rfl]
    omega
  have t : Table k m (f.freed false v (visits va 1) + (R + f.user)) pt f := by
    rw [Map.freed, if_neg (by decide), zero_add]
    exact u.table
  refine Vm.wp_uvmunmap t first (.inl fun w h1 h2 => ?_) fun m' t' kept => ?_
  · rw [visit] at h2
    obtain rfl : w = v := by omega
    exact ⟨e, he, leaf_flags (u.leaf w e he)⟩
  · rw [visit] at t'
    exact next m' (User.erase_high high u.leaf t') (kept.mono (Multiset.le_add_right ..))

theorem Map.covers_zero (h : ∀ v < trapframePn, f v = none) : f.Covers 0 := fun v hv =>
  iff_of_false (fun ne => ne (h v hv)) (Nat.not_lt_zero v)

theorem pageCount_zero : pageCount 0 = 0 := rfl

theorem wp_uvmfree_empty (u : User k m R pt f) (none : ∀ v, f v = none)
    (next : ∀ m', Holds k m' R → Kept R m m' → Q () m') : wp (uvmfree k pt 0) E Q m :=
  wp_uvmfree u (fun v _ => none v) (by decide)
    (.inl (pageCount_zero ▸ Map.covers_zero fun v _ => none v)) next

/-- `proc_pagetable` makes a table with the two highest pages, or leaves memory as it was. -/
theorem wp_procPagetable (h : Holds k m R)
    (fail : ∀ m', Holds k m' R → Kept R m m' → Q none m')
    (ok : ∀ pt f m', User k m' R pt f → Top k f tf → (∀ v < trapframePn, f v = none) →
      Kept R m m' → Q (some pt) m') :
    wp (procPagetable k tf) E Q m := by
  have hv : trampolineVa.toNat / 4096 = trampolinePn := by decide
  have hv' : trapframeVa.toNat / 4096 = trapframePn := by decide
  refine .seq (wp_uvmcreate h (fun _ => fail m h .refl) fun pt m1 t1 kept1 => ?_)
  have user : Map.user (fun _ => none) = 0 := Map.user_eq_zero fun _ _ => rfl
  have t1 : Table k m1 (R + Map.user fun _ => none) pt fun _ => none := by
    rwa [user, add_zero]
  have keep : ∀ {m m' : Mem} {f : Map}, Kept (R + f.user) m m' → Kept R m m' := fun kept =>
    kept.mono (Multiset.le_add_right ..)
  simp only [wp_bind]
  refine wp_mappages t1 (by decide) (by decide) (absurd rfl ·) (fun m2 t2 kept2 _ => ?_)
    fun _ m2 t2 kept2 => ?_
  · have kept2 := kept1.trans (keep kept2)
    refine .seq (wp_uvmfree_empty ⟨t2, (by intros; contradiction)⟩ (fun _ => rfl)
      fun m3 h3 kept3 => ?_)
    exact fail m3 h3 (kept2.trans kept3)
  have kept2 := kept1.trans (keep kept2)
  rw [hv] at t2
  have u2 := User.update_high (by decide) trampoline_leaf (fun _ _ he => by cases he) t2
  have free : update (fun _ => none) trampolinePn (some (trampolineEntry k))
      (trapframeVa.toNat / 4096) = none := update_of_ne (by decide) ..
  refine .seq (wp_mappages u2.table (by decide) (by decide) (absurd free ·)
    (fun m3 t3 kept3 _ => ?_) fun _ m3 t3 kept3 => ?_)
  · have kept3 := kept2.trans (keep kept3)
    have u3 : User k m3 R pt _ := ⟨t3, u2.leaf⟩
    refine .seq (u3.wp_unmap_high trampoline_page (by decide) (update_self ..)
      fun m4 u4 kept4 => ?_)
    refine .seq (wp_uvmfree_empty u4 (fun v => ?_) fun m5 h5 kept5 =>
      fail m5 h5 ((kept3.trans kept4).trans kept5))
    by_cases hv : v = trampolinePn
    · exact if_pos (by rw [hv, trampolinePn_eq]; omega)
    · rw [Map.erase, update_of_ne hv, ite_self]
  · have kept3 := kept2.trans (keep kept3)
    rw [hv'] at t3
    refine ok pt _ m3 (User.update_high le_rfl trapframe_leaf u2.leaf t3)
      ⟨?_, update_self ..⟩ (fun v hv => ?_) kept3
    · rw [update_of_ne (by decide), update_self]
    · have ne : v ≠ trampolinePn := by
        rw [trapframePn_eq] at hv
        rw [trampolinePn_eq]
        omega
      rw [update_of_ne (by omega), update_of_ne ne]

theorem wp_procFreepagetable (u : User k m R pt f) (top : Top k f tf) (small : sz ≤ trapframeVa)
    (err : f.Covers (pageCount sz) ∨ ∀ e, E e) (next : ∀ m', Holds k m' R → Kept R m m' → Q () m') :
    wp (procFreepagetable k pt sz) E Q m := by
  have ne : ¬(trampolinePn ≤ trapframePn ∧ trapframePn < trampolinePn + 1) := by decide
  have frame : f.erase trampolinePn 1 trapframePn = some (trapframeEntry tf) :=
    (if_neg ne).trans top.trapframe
  refine .seq (u.wp_unmap_high trampoline_page (by decide) top.trampoline
    fun m1 u1 kept1 => .seq (u1.wp_unmap_high trapframe_page le_rfl frame
      fun m2 u2 kept2 => ?_))
  refine wp_uvmfree u2 (fun v hv => ?_) small (err.imp (fun cov v hv => ?_) id)
    fun m' h' kept' => next m' h' ((kept1.trans kept2).trans kept')
  · by_contra mapped
    have bound := u2.table.bound v mapped
    refine mapped ?_
    simp only [Map.erase]
    rw [trapframePn_eq, trampolinePn_eq] at *
    rw [npages_eq] at bound
    split
    · rfl
    · exact if_pos (by omega)
  · have same : Map.erase (f.erase trampolinePn 1) trapframePn 1 v = f v := by
      simp only [Map.erase]
      rw [trapframePn_eq] at *
      rw [if_neg (by omega), if_neg (by rw [trampolinePn_eq]; omega)]
    rw [same]
    exact cov v hv

end Tops

section Write

variable {tf : Addr} {src : List UInt8}

theorem User.setUser (u : User k m R pt f) (hx : x ∈ f.user) (p : Page) :
    User k (m.setPage x p) R pt f ∧ Kept R m (m.setPage x p) := by
  have nd := nodup_add.mp u.table.holds.held_nodup
  have out : ∀ y ∈ tablePages m.word pt, y ≠ x := by
    rintro y hy rfl
    exact disjoint_left.mp nd.2.2 (mem_add.mpr (.inr hx)) hy
  refine ⟨u.congr (fun y hy => Mem.setPage_of_ne (out y hy))
    ⟨u.table.holds.part, u.table.holds.once⟩, fun y hy => Mem.setPage_of_ne ?_⟩
  rintro rfl
  exact disjoint_left.mp (nodup_add.mp nd.1).2.2 hy hx

theorem Top.user_lt (top : Top k f tf) (u : User k m R pt f) (he : f v = some e)
    (user : e &&& pteU ≠ 0) : v < trapframePn := by
  have bound := u.table.bound v (by simp [he])
  rw [npages_eq] at bound
  by_contra high
  rw [trapframePn_eq] at high
  rw [and_flags (by decide)] at user
  obtain rfl | rfl : v = 67108862 ∨ v = 67108863 := by omega
  · have := he.symm.trans top.trapframe
    rw [Option.some.injEq] at this
    rw [this, pteFlags_trapframe] at user
    exact user (by decide)
  · have := he.symm.trans top.trampoline
    rw [Option.some.injEq] at this
    rw [this, pteFlags_trampoline] at user
    exact user (by decide)

/-- A pass of `copyout`: it fails unless the address is on a user page with PTE_W, and else writes
and goes on. -/
theorem Tree.wp_copyoutPass (t : Tree m.word pt f)
    (fail : (¬∃ e, f (va.toNat / 4096) = some e ∧ e &&& pteU ≠ 0 ∧ e &&& pteW ≠ 0) → Q false m)
    (go : ∀ e rest page, f (va.toNat / 4096) = some e → e &&& pteU ≠ 0 ∧ e &&& pteW ≠ 0 →
      List.drop (pgsize - (va - pgrounddown va)).toNat (b :: src) = rest →
      writeBytes (m.word (pte2pa e)) (va - pgrounddown va).toNat
        (List.take (pgsize - (va - pgrounddown va)).toNat (b :: src)) = page →
      wp (copyoutLoop pt fuel (pgrounddown va + pgsize) rest) E Q (m.setPage (pte2pa e) page)) :
    wp (copyoutLoop pt (fuel + 1) va (b :: src)) E Q m := by
  have page : (pgrounddown va).toNat / 4096 = va.toNat / 4096 := by
    rw [pgrounddown_toNat, Nat.mul_div_cancel _ (by decide)]
  refine wp_ite (fun high => fail ?_) fun low => ?_
  · rintro ⟨e, he, -⟩
    have := t.bound _ (he ▸ some_ne_none e)
    rw [le_iff_toNat_le, pgrounddown_toNat, maxva_toNat] at high
    rw [npages_eq] at this
    omega
  have low := UInt64.not_le.mp low
  rw [wp_bind, wp_walk_false low]
  cases hs : Radix.slot fmt m.word (ix (pgrounddown va)) 2 pt with
  | none =>
    have none := t.of_slot_none low hs
    rw [page] at none
    exact fail fun ⟨e, he, _⟩ => nomatch none.symm.trans he
  | some p =>
    have found := t.of_slot_some low hs
    rw [page] at found
    simp only [wp_bind, load, wp_get, wp_pure]
    generalize m.word p.1 p.2 = e at found ⊢
    refine wp_ite (fun no => fail ?_) fun ok => ?_
    · rintro ⟨e', he, user, write⟩
      rw [he] at found
      obtain ⟨valid, rfl⟩ : e &&& pteV ≠ 0 ∧ e = e' := by simpa [fmt] using found
      tauto
    have valid := (not_or.mp ok).1
    have he : f (va.toNat / 4096) = some e := by
      rw [← found]
      simp [fmt, valid]
    rw [wp_bind, wp_modify]
    generalize hr : List.drop _ _ = rest
    generalize hp : writeBytes _ _ _ = page
    exact go e rest page he (not_or.mp (not_or.mp ok).2) hr hp

theorem wp_copyoutLoop (u : User k m R pt f) (top : Top k f tf) :
    wp (copyoutLoop pt fuel va src) E (fun _ m' => User k m' R pt f ∧ Kept R m m') m := by
  induction fuel generalizing m va src with
  | zero => cases src <;> exact ⟨u, .refl⟩
  | succ fuel ih =>
    cases src with
    | nil => exact ⟨u, .refl⟩
    | cons b src =>
      refine u.table.wp_copyoutPass (fun _ => ⟨u, .refl⟩) fun e _ page he ok _ _ => ?_
      obtain ⟨u1, kept1⟩ := u.setUser (Map.mem_user (top.user_lt u he ok.1) he) page
      exact (ih u1).mono (fun _ m' h => ⟨h.1, kept1.trans h.2⟩) fun _ => id

theorem wp_copyout (u : User k m R pt f) (top : Top k f tf)
    (next : ∀ r m', User k m' R pt f → Kept R m m' → Q r m') : wp (copyout pt dstva src) E Q m :=
  (wp_copyoutLoop u top).mono (fun r m' h => next r m' h.1 h.2) fun _ => id

theorem User.wp_uvmclear (u : User k m R pt f)
    (first : va.toNat = v * 4096) (low : v < trapframePn) (mapped : f v ≠ none)
    (next : ∀ g m', User k m' R pt g → (∀ w, g w = none ↔ f w = none) →
      (∀ w, trapframePn ≤ w → g w = f w) → Kept R m m' → Q () m') :
    wp (uvmclear pt va) E Q m := by
  have page : va.toNat / 4096 = v := by omega
  have high : va < maxva := by
    rw [trapframePn_eq] at low
    rw [lt_iff_toNat_lt, maxva_toNat]
    omega
  obtain ⟨e, he⟩ := ne_none_iff_exists'.mp mapped
  refine Vm.wp_uvmclear u.table high (.inl (by rwa [page])) fun m' t' kept => ?_
  rw [page, he, map_some] at t'
  refine next (update f v (some (e &&& ~~~pteU))) m' ⟨?_, fun w e' he' => ?_⟩
    (fun w => ?_) (fun w hw => ?_) (kept.mono (Multiset.le_add_right ..))
  · have same : Map.user (update f v (some (e &&& ~~~pteU))) = f.user := by
      unfold Map.user Map.pages
      refine Finset.sum_congr rfl fun w _ => ?_
      by_cases hw : w = v
      · rw [hw, update_self, he, elim_some, elim_some, pte2pa_clear]
      · rw [update_of_ne hw]
    rwa [same]
  · by_cases hw : w = v
    · rw [hw, update_self, Option.some.injEq] at he'
      rw [← he', UInt64.and_assoc, show ~~~pteU &&& pteR = pteR by decide]
      exact u.leaf v e he
    · rw [update_of_ne hw] at he'
      exact u.leaf w e' he'
  · by_cases hw : w = v
    · rw [hw, update_self, he]
      simp
    · rw [update_of_ne hw]
  · exact update_of_ne (by omega) ..

theorem wp_uvmfirst {Q : Unit → Mem → Prop} (u : User k m R pt f) (free : f 0 = none)
    (err : E .uvmfirst ∧ E .nullPointer)
    (lost : ∀ x m', User k m' (x ::ₘ R) pt f → Kept R m m' → Q () m')
    (next : ∀ e m', User k m' R pt (update f 0 (some e)) → Kept R m m' → Q () m') :
    wp (uvmfirst pt src) E Q m := by
  have low : 0 < trapframePn := by decide
  refine wp_ite (fun _ => err.1) fun _ => ?_
  refine .seq (u.wp_kalloc (fun _ => err.2) fun x m1 u1 kept1 => ?_)
  simp only [wp_bind, memset, wp_modify]
  obtain ⟨u2, kept2⟩ := u1.setPage fun _ => 0
  have kept2 := kept1.left.trans kept2.left
  refine u2.wp_mappages (v := 0) rfl low.le (fun _ => low) (by decide) (by decide) (.inl free)
    (fun m3 u3 kept3 => ?_) fun _ m3 u3 kept3 => ?_
  · obtain ⟨u4, kept4⟩ := u3.setPage (writeBytes (m3.word x) 0 src)
    exact lost x _ u4 ((kept2.trans kept3.tail.left).trans kept4.left)
  · have small := u2.table.holds.small (x := x) (by simp)
    have hx : x ∈ Map.user (update f 0 (some (pa2pte x |||
        (pteW ||| pteR ||| pteX ||| pteU ||| pteV)))) := by
      have mem := Map.mem_user (f := update f 0 (some (pa2pte x |||
        (pteW ||| pteR ||| pteX ||| pteU ||| pteV)))) low (update_self ..)
      rwa [pte2pa_entry small.1 small.2 (by decide)] at mem
    obtain ⟨u4, kept4⟩ := u3.setUser hx (writeBytes (m3.word x) 0 src)
    exact next _ _ u4 ((kept2.trans kept3.tail.left).trans kept4)

end Write

end Xv6.Vm
