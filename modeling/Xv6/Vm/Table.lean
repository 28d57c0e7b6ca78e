import Xv6.Vm.Walk

/-! A page table as a finite map from page numbers to entries, and what the functions of
`kernel/vm.c` do to the map. -/

namespace Xv6.Vm

open Wp Function List Multiset UInt64

/-- The page number that three indices stand for. -/
def vpn (i : Nat → Fin 512) : Nat := ((i 2).val * 512 + (i 1).val) * 512 + (i 0).val

abbrev npages : Nat := 2 ^ 26

variable {k : Symbols} {m m' : Mem} {R S : Multiset Addr} {pt x : Addr} {E : Stop → Prop}
  {va : UInt64}

theorem vpn_inj : vpn i = vpn j ↔ ∀ l ≤ 2, i l = j l := by
  unfold vpn
  constructor
  · intro h l hl
    obtain rfl | rfl | rfl : l = 0 ∨ l = 1 ∨ l = 2 := by omega
    all_goals exact Fin.ext (by omega)
  · intro h
    rw [h 2 le_rfl, h 1 (by omega), h 0 (by omega)]

theorem maxva_toNat : maxva.toNat = 67108864 * 4096 := by decide

theorem npages_eq : npages = 67108864 := rfl

theorem vpn_ix (h : va < maxva) : vpn (ix va) = va.toNat / 4096 := by
  have := lt_iff_toNat_lt.mp h
  rw [maxva_toNat] at this
  simp only [vpn, ix, px_val (show (2 : Nat) ≤ 2 from le_rfl), px_val (show (1 : Nat) ≤ 2 by omega),
    px_val (show (0 : Nat) ≤ 2 by omega)]
  omega

/-- A map from page numbers to page-table entries. -/
abbrev Map : Type := Nat → Option UInt64

/-- The page table `pt` stands for the map `f`. -/
structure Tree (w : Addr → Page) (pt : Addr) (f : Map) : Prop where
  inner : Radix.Inner fmt w 2 pt
  maps : ∀ i, Radix.look fmt w i 2 pt = f (vpn i)
  bound : ∀ v, f v ≠ none → v < npages

variable (k) in
/-- In the memory `m` the page table `pt` stands for the map `f`; its page-table pages are held, and
so are the pages `R`. -/
structure Table (m : Mem) (R : Multiset Addr) (pt : Addr) (f : Map) : Prop extends
    Tree m.word pt f where
  holds : Holds k m (R + tablePages m.word pt)

/-- The pages of `R` are as they were. -/
def Kept (R : Multiset Addr) (m m' : Mem) : Prop := ∀ x ∈ R, m'.word x = m.word x

theorem Kept.refl : Kept R m m := fun _ _ => rfl

theorem Kept.trans (h : Kept R m m') (h' : Kept R m' m'') : Kept R m m'' :=
  fun x hx => (h' x hx).trans (h x hx)

theorem Kept.mono (h : Kept S m m') (le : R ≤ S) : Kept R m m' :=
  fun x hx => h x (mem_of_le le hx)

theorem Kept.left (h : Kept (R + S) m m') : Kept R m m' :=
  h.mono (Multiset.le_add_right ..)

theorem Kept.tail (h : Kept (x ::ₘ R) m m') : Kept R m m' := h.mono (Multiset.le_cons_self ..)

section Tree

variable {w w' : Addr → Page} {f : Map} {p : PtePtr}

theorem Tree.congr (t : Tree w pt f) (same : ∀ x ∈ tablePages w pt, w' x = w x) :
    Tree w' pt f where
  inner := t.inner.congr same
  maps i := (Radix.look_congr same).trans (t.maps i)
  bound := t.bound

theorem Tree.look (t : Tree w pt f) (h : va < maxva) :
    Radix.look fmt w (ix va) 2 pt = f (va.toNat / 4096) := by
  rw [t.maps, vpn_ix h]

theorem Tree.of_slot_none (t : Tree w pt f) (h : va < maxva)
    (hs : Radix.slot fmt w (ix va) 2 pt = none) : f (va.toNat / 4096) = none := by
  rw [← t.look h, Radix.look, hs]
  rfl

theorem Tree.of_slot_some (t : Tree w pt f) (h : va < maxva)
    (hs : Radix.slot fmt w (ix va) 2 pt = some p) :
    fmt.entry (w p.1 p.2) = f (va.toNat / 4096) := by
  rw [← t.look h, Radix.look, hs]
  rfl

end Tree

namespace Table

variable {f : Map} {p : PtePtr}

section

variable (t : Table k m R pt f)

include t

theorem nodup : (tablePages m.word pt).Nodup :=
  (nodup_add.mp t.holds.held_nodup).2.1

theorem not_mem (hx : x ∈ R) : x ∉ tablePages m.word pt :=
  disjoint_left.mp (nodup_add.mp t.holds.held_nodup).2.2 hx

theorem congr (same : ∀ x ∈ tablePages m.word pt, m'.word x = m.word x)
    (holds : Holds k m' (S + tablePages m.word pt)) : Table k m' S pt f where
  toTree := t.toTree.congr same
  holds := by
    rwa [tablePages, Radix.nodes_congr same]

theorem setWord (h : va < maxva) (hs : Radix.slot fmt m.word (ix va) 2 pt = some p) (v : UInt64) :
    Table k (m.setWord p v) R pt (update f (va.toNat / 4096) (fmt.entry v)) where
  holds := by
    have same : tablePages (m.setWord p v).word pt = tablePages m.word pt :=
      Radix.nodes_set t.nodup hs
    rw [same]
    exact ⟨t.holds.part, t.holds.once⟩
  inner := t.inner.set t.nodup hs
  maps i := by
    have set : Radix.look fmt (m.setWord p v).word i 2 pt = _ := Radix.look_set t.nodup hs
    refine set.trans ?_
    rw [t.maps, update_apply, ← vpn_ix h]
    simp only [← vpn_inj]
  bound u hu := by
    by_cases hv : u = va.toNat / 4096
    · have := lt_iff_toNat_lt.mp h
      rw [maxva_toNat] at this
      rw [hv, npages_eq]
      omega
    · rw [update_of_ne hv] at hu
      exact t.bound u hu

theorem kept_setWord (hs : Radix.slot fmt m.word (ix va) 2 pt = some p) (v : UInt64) :
    Kept R m (m.setWord p v) := by
  intro x hx
  refine update_of_ne ?_ ..
  rintro rfl
  exact t.not_mem hx (Radix.slot_mem hs)

theorem walked (w : Walked k m R va 2 pt r m') : Table k m' R pt f ∧ Kept R m m' := by
  obtain ⟨new, grew, holds, -, -⟩ := w
  have outside : ∀ x ∈ R, x ∉ tablePages m'.word pt := fun x hx =>
    disjoint_left.mp (nodup_add.mp holds.held_nodup).2.2 hx
  refine ⟨⟨⟨grew.inner t.inner, fun i => (grew.look i).trans (t.maps i), t.bound⟩, holds⟩, ?_⟩
  intro x hx
  refine grew.frame x (t.not_mem hx) fun hn => outside x hx ?_
  rw [tablePages, grew.nodes]
  exact mem_add.mpr (.inr hn)

end

end Table

theorem wp_walkaddr (t : Tree m.word pt f)
    (zero : (va < maxva → ∀ e, f (va.toNat / 4096) = some e → e &&& pteU = 0) → Q 0 m)
    (found : ∀ e, va < maxva → f (va.toNat / 4096) = some e → e &&& pteU ≠ 0 → Q (pte2pa e) m) :
    wp (walkaddr pt va) E Q m := by
  refine wp_ite (fun high => zero fun low => absurd high (UInt64.not_le.mpr low)) fun low => ?_
  have low := UInt64.not_le.mp low
  rw [wp_bind, wp_walk_false low]
  cases hs : Radix.slot fmt m.word (ix va) 2 pt with
  | none =>
    have none := t.of_slot_none low hs
    exact zero fun _ e he => by
      rw [none] at he
      cases he
  | some p =>
    have here := t.of_slot_some low hs
    simp only [wp_bind, load, wp_get, wp_pure]
    refine wp_ite (fun invalid => zero fun _ e he => ?_) fun valid => ?_
    · rw [he] at here
      simp [fmt, invalid] at here
    have he : f (va.toNat / 4096) = some (m.word p.1 p.2) := by
      rw [← here]
      simp [fmt, valid]
    refine wp_ite (fun kernel => zero fun _ e he' => ?_) fun user => found _ low he user
    rw [he, Option.some.injEq] at he'
    exact he' ▸ kernel

theorem mod_pgsize : va % pgsize = 0 ↔ va.toNat % 4096 = 0 := by
  rw [← UInt64.toNat_inj, UInt64.toNat_mod]
  rfl

theorem entry_valid (v : UInt64) : fmt.entry (v ||| pteV) = some (v ||| pteV) := by
  have valid : (v ||| pteV) &&& pteV ≠ 0 := by
    intro h
    have h := congrArg UInt64.toNat h
    rw [UInt64.toNat_and, UInt64.toNat_or, Nat.and_comm, Nat.and_or_distrib_left] at h
    exact absurd (Nat.or_eq_zero_iff.mp h).2 (by decide)
  exact if_pos valid

section MapOne

variable {f : Map} {pa perm : UInt64} {Q : Bool → Mem → Prop}

theorem wp_mappages (t : Table k m R pt f) (aligned : va.toNat % 4096 = 0) (h : va < maxva)
    (remap : f (va.toNat / 4096) ≠ none → E .mappagesRemap)
    (fail : ∀ m', Table k m' R pt f → Kept R m m' → m'.freelist = [] → Q false m')
    (ok : f (va.toNat / 4096) = none → ∀ m', Table k m' R pt
      (update f (va.toNat / 4096) (some (pa2pte pa ||| perm ||| pteV))) → Kept R m m' →
      Q true m') :
    wp (mappages pt va pgsize pa perm) E Q m := by
  rw [mappages, if_neg (not_not.mpr (mod_pgsize.mpr aligned)), if_neg (by decide),
    if_neg (by decide)]
  show wp (mappagesLoop pt (va + pgsize - pgsize) perm 1 va pa) E Q m
  simp only [mappagesLoop]
  refine (wp_walk_true h t.holds).bind fun r m1 walked => ?_
  obtain ⟨t1, kept⟩ := t.walked walked
  obtain ⟨-, -, -, place, empty⟩ := walked
  cases r with
  | none => exact fail m1 t1 kept (empty rfl)
  | some p =>
    have hs := place p rfl
    have found := t1.of_slot_some h hs
    simp only [wp_bind, load, wp_get, wp_pure]
    refine wp_ite (fun valid => ?_) fun invalid => ?_
    · refine remap ?_
      rw [← found]
      exact fun hn => absurd hn (by simp [fmt, valid])
    · have none : f (va.toNat / 4096) = none := by
        rw [← found]
        simp [fmt, not_not.mp invalid]
      have set := t1.setWord h hs (pa2pte pa ||| perm ||| pteV)
      rw [entry_valid] at set
      simp only [wp_bind, store, wp_modify]
      refine wp_ite (fun _ => ok none _ set (kept.trans (t1.kept_setWord hs _))) fun ne => ?_
      exact (ne (by grind)).elim

end MapOne

/-- The map without the `n` pages from `lo` on. -/
def Map.erase (f : Map) (lo n : Nat) : Map := fun v => if lo ≤ v ∧ v < lo + n then none else f v

/-- The physical pages of the `n` pages from `lo` on. -/
def Map.pages (f : Map) (lo n : Nat) : Multiset Addr :=
  ∑ v ∈ Finset.Ico lo (lo + n), (f v).elim 0 fun e => {pte2pa e}

section Unmap

variable {f g : Map} {lo n : Nat} {do_free : Bool}

@[simp] theorem Map.erase_zero : f.erase lo 0 = f := by
  funext v
  exact if_neg (by omega)

@[simp] theorem Map.pages_zero : f.pages lo 0 = 0 := by simp [Map.pages]

theorem Map.pages_succ :
    f.pages lo (n + 1) = ((f lo).elim 0 fun e => {pte2pa e}) + f.pages (lo + 1) n := by
  rw [Map.pages, Finset.sum_eq_sum_Ico_succ_bot (by omega), Map.pages]
  congr 2
  rw [show lo + (n + 1) = lo + 1 + n by omega]

theorem Map.pages_congr (h : ∀ v, lo ≤ v → v < lo + n → g v = f v) : g.pages lo n = f.pages lo n :=
  Finset.sum_congr rfl fun v hv => by
    obtain ⟨h1, h2⟩ := Finset.mem_Ico.mp hv
    rw [h v h1 h2]

theorem Map.erase_succ : f.erase lo (n + 1) = Map.erase (update f lo none) (lo + 1) n := by
  funext v
  simp only [Map.erase, update_apply]
  by_cases hv : v = lo
  · subst hv
    simp
  · simp only [hv, if_false]
    congr 1
    exact propext ⟨fun _ => by omega, fun _ => by omega⟩

/-- The pages that `uvmunmap` frees. -/
def Map.freed (f : Map) (do_free : Bool) (lo n : Nat) : Multiset Addr :=
  if do_free then f.pages lo n else 0

theorem Map.freed_succ (h : f lo = some e) :
    f.freed do_free lo (n + 1) = (if do_free then {pte2pa e} else 0) +
      Map.freed (update f lo none) do_free (lo + 1) n := by
  cases do_free with
  | false => rfl
  | true =>
    have rest : Map.pages (update f lo none) (lo + 1) n = f.pages (lo + 1) n :=
      Map.pages_congr fun v h1 _ => update_of_ne (by omega) ..
    simp only [Map.freed, if_true, Map.pages_succ, rest, h, Option.elim_some]

theorem Table.wp_free {p : PtePtr}
    (t : Table k m ((if do_free then {pa} else 0) + R) pt f)
    (hs : Radix.slot fmt m.word (ix va) 2 pt = some p)
    (next : ∀ m', Table k m' R pt f → Kept R m m' →
      Radix.slot fmt m'.word (ix va) 2 pt = some p → Q () m') :
    wp (kfreeIf k do_free pa) E Q m := by
  cases do_free with
  | false => exact next m (by simpa using t) .refl hs
  | true =>
    have held : Holds k m (pa ::ₘ (R + tablePages m.word pt)) := by
      have := t.holds
      rwa [if_pos rfl, add_assoc, singleton_add] at this
    have nd := nodup_cons.mp held.held_nodup
    have out : ∀ x, x ∈ R + tablePages m.word pt → x ≠ pa := by
      rintro x hx rfl
      exact nd.1 hx
    refine wp_kfree held fun m' h' same => ?_
    have table : ∀ x ∈ tablePages m.word pt, m'.word x = m.word x := fun x hx =>
      same x (out x (mem_add.mpr (.inr hx)))
    exact next m' (t.congr table h')
      (fun x hx => same x (out x (mem_add.mpr (.inl hx))))
      ((Radix.slot_congr table).trans hs)

theorem wp_uvmunmapLoop (t : Table k m (f.freed do_free lo n + R) pt f) (fits : n ≤ fuel)
    (first : a.toNat = lo * 4096)
    (last : stop.toNat = (lo + n) * 4096 ∨ n = 0 ∧ stop.toNat ≤ lo * 4096)
    (err : (∀ v, lo ≤ v → v < lo + n → ∃ e, f v = some e ∧ pteFlags e ≠ pteV) ∨ ∀ e, E e) :
    wp (uvmunmapLoop k pt stop do_free fuel a) E
      (fun _ m' => Table k m' R pt (f.erase lo n) ∧ Kept R m m') m := by
  induction n generalizing lo a fuel m f with
  | zero =>
    have stays : Table k m R pt (f.erase lo 0) ∧ Kept R m m := by
      refine ⟨?_, .refl⟩
      simpa [Map.freed] using t
    cases fuel with
    | zero => exact stays
    | succ fuel =>
      refine wp_ite (fun lt => ?_) fun _ => stays
      rw [lt_iff_toNat_lt] at lt
      omega
  | succ n ih =>
    obtain ⟨fuel, rfl⟩ : ∃ j, fuel = j + 1 := ⟨fuel - 1, by omega⟩
    have lt : a < stop := lt_iff_toNat_lt.mpr (by omega)
    have page : a.toNat / 4096 = lo := by omega
    have here := err.imp (fun all => all lo le_rfl (by omega)) id
    rw [uvmunmapLoop, if_pos lt, wp_bind]
    by_cases low : a < maxva
    swap
    · -- `walk` panics, but no page above `MAXVA` is mapped
      rw [walk, if_pos (UInt64.not_lt.mp low)]
      rcases here with ⟨e, he, -⟩ | all
      · have := t.bound lo (by simp [he])
        rw [UInt64.lt_iff_toNat_lt, maxva_toNat] at low
        rw [npages_eq] at this
        omega
      · exact all _
    rw [wp_walk_false low]
    cases hs : Radix.slot fmt m.word (ix a) 2 pt with
    | none =>
      rcases here with ⟨e, he, -⟩ | all
      · have := t.of_slot_none low hs
        rw [page, he] at this
        cases this
      · exact all _
    | some p =>
      have found := t.of_slot_some low hs
      rw [page] at found
      simp only [wp_bind, load, wp_get, wp_pure]
      refine wp_ite (fun invalid => ?_) fun valid => wp_ite (fun pointer => ?_) fun leaf => ?_
      · rcases here with ⟨e, he, -⟩ | all
        · simp [fmt, invalid, he] at found
        · exact all _
      · rcases here with ⟨e, he, flags⟩ | all
        · rw [he] at found
          obtain ⟨-, rfl⟩ : _ ∧ _ = e := by simpa [fmt] using found
          exact (flags pointer).elim
        · exact all _
      · have hf : f lo = some (m.word p.1 p.2) := by simpa [fmt, valid] using found.symm
        rw [Map.freed_succ hf, add_assoc] at t
        refine .seq (t.wp_free hs fun m1 t1 kept hs1 => ?_)
        have t2 := t1.setWord low hs1 0
        rw [page, show fmt.entry 0 = none by decide] at t2
        simp only [wp_bind, store, wp_modify]
        have kept2 : Kept R m (m1.setWord p 0) :=
          (kept.trans (t1.kept_setWord hs1 0)).mono (Multiset.le_add_left ..)
        have next : (a + pgsize).toNat = (lo + 1) * 4096 := by
          have := stop.toNat_lt
          rw [UInt64.toNat_add, show pgsize.toNat = 4096 from rfl]
          omega
        have last' : stop.toNat = (lo + 1 + n) * 4096 := by omega
        refine (ih t2 (by omega) next (.inl last') (err.imp (fun all v h1 h2 => ?_) id)).mono
          (fun _ m' h => ⟨?_, kept2.trans h.2⟩) fun _ => id
        · rw [update_of_ne (by omega)]
          exact all v (by omega) (by omega)
        · rw [Map.erase_succ]
          exact h.1

/-- How many pages `uvmunmap` visits: `npages`, unless the end of the range wraps around. -/
def visits (va np : UInt64) : Nat := ((va + np * pgsize).toNat - va.toNat) / 4096

theorem visits_eq (fits : va.toNat + np.toNat * 4096 < 2 ^ 64) : visits va np = np.toNat := by
  rw [visits, UInt64.toNat_add, UInt64.toNat_mul, show pgsize.toNat = 4096 from rfl]
  omega

theorem wp_uvmunmap
    (t : Table k m (f.freed do_free lo (visits va np) + R) pt f) (first : va.toNat = lo * 4096)
    (err : (∀ v, lo ≤ v → v < lo + visits va np → ∃ e, f v = some e ∧ pteFlags e ≠ pteV) ∨
      ∀ e, E e) (next : ∀ m', Table k m' R pt (f.erase lo (visits va np)) → Kept R m m' → Q () m') :
    wp (uvmunmap k pt va np do_free) E Q m := by
  have aligned : va % pgsize = 0 := mod_pgsize.mpr (by omega)
  have stop : (va + np * pgsize).toNat = (va.toNat + np.toNat * 4096) % 2 ^ 64 := by
    rw [UInt64.toNat_add, UInt64.toNat_mul, show pgsize.toNat = 4096 from rfl]
    omega
  have count : visits va np = ((va + np * pgsize).toNat - va.toNat) / 4096 := rfl
  rw [uvmunmap, if_neg (not_not.mpr aligned)]
  exact (wp_uvmunmapLoop t (by omega) first (by omega) err).mono (fun _ m' h => next m' h.1 h.2)
    fun _ => id

end Unmap

section Clear

variable {f : Map} {Q : Unit → Mem → Prop}

theorem entry_clear (v : UInt64) :
    fmt.entry (v &&& ~~~pteU) = (fmt.entry v).map (· &&& ~~~pteU) := by
  have same : v &&& ~~~pteU &&& pteV = v &&& pteV := by
    rw [UInt64.and_assoc, show ~~~pteU &&& pteV = pteV by decide]
  simp only [fmt, same]
  split <;> rfl

theorem wp_uvmclear (t : Table k m R pt f) (h : va < maxva)
    (err : f (va.toNat / 4096) ≠ none ∨ E .uvmclear)
    (next : ∀ m', Table k m' R pt (update f (va.toNat / 4096)
      ((f (va.toNat / 4096)).map (· &&& ~~~pteU))) → Kept R m m' → Q () m') :
    wp (uvmclear pt va) E Q m := by
  rw [uvmclear, wp_bind, wp_walk_false h]
  cases hs : Radix.slot fmt m.word (ix va) 2 pt with
  | none => exact err.resolve_left (not_not.mpr (t.of_slot_none h hs))
  | some p =>
    have set := t.setWord h hs (m.word p.1 p.2 &&& ~~~pteU)
    rw [entry_clear, t.of_slot_some h hs] at set
    exact next _ set (t.kept_setWord hs _)

end Clear

theorem Table.blank (blank : m.word pt = fun _ => 0) (h : Holds k m (pt ::ₘ R)) :
    Table k m R pt fun _ => none := by
  refine ⟨⟨Radix.inner_blank blank (by decide),
    fun i => Radix.look_blank blank (by decide) (by decide) i, fun _ => (absurd rfl ·)⟩, ?_⟩
  rwa [tablePages, Radix.nodes_blank blank (by decide), add_comm, singleton_add]

theorem wp_uvmcreate (h : Holds k m R) (fail : m.freelist = [] → Q none m)
    (ok : ∀ pt m', Table k m' R pt (fun _ => none) → Kept R m m' → Q (some pt) m') :
    wp uvmcreate E Q m := by
  refine .seq (wp_kalloc h fail fun x fresh m1 h₁ same => ?_)
  simp only [wp_bind, memset, wp_modify, wp_pure]
  refine ok x _ (.blank (update_self ..) ⟨h₁.part, h₁.once⟩) fun y hy => ?_
  have ne : y ≠ x := by
    rintro rfl
    exact fresh hy
  exact (update_of_ne ne ..).trans (same y ne)

section Freewalk

variable {l : Nat} {a c : Addr} {is : List (Fin 512)} {w : Addr → Page} {i : Fin 512}

/-- The page-table pages below the given entries of `a`. -/
def below (w : Addr → Page) (l : Nat) (a : Addr) (is : List (Fin 512)) : Multiset Addr :=
  (is.map fun i => (fmt.child (w a i)).elim 0 (Radix.nodes fmt w l)).sum

theorem nodes_eq_below : Radix.nodes fmt w (l + 1) a = a ::ₘ below w l a (List.finRange 512) := by
  rw [Radix.nodes, below]
  exact congrArg _ (Fin.sum_univ_def _)

theorem below_cons : below w l a (i :: is) =
    (fmt.child (w a i)).elim 0 (Radix.nodes fmt w l) + below w l a is := by
  rw [below, List.map_cons, List.sum_cons, below]

theorem mem_below (hi : i ∈ is) (hc : fmt.child (w a i) = some c)
    (hx : x ∈ Radix.nodes fmt w l c) : x ∈ below w l a is := by
  induction is with
  | nil => cases hi
  | cons j is ih =>
    rw [below_cons, mem_add]
    rcases mem_cons.mp hi with rfl | hi
    · exact .inl (by rwa [hc])
    · exact .inr (ih hi)

theorem below_congr (root : ∀ i ∈ is, w' a i = w a i)
    (same : ∀ x ∈ below w l a is, w' x = w x) : below w' l a is = below w l a is := by
  refine congrArg List.sum (map_congr_left fun i hi => ?_)
  rw [root i hi]
  cases hc : fmt.child (w a i) with
  | none => rw [Option.elim_none, Option.elim_none]
  | some c =>
    rw [Option.elim_some, Option.elim_some]
    exact Radix.nodes_congr fun x hx => same x (mem_below hi hc hx)

/-- A subtree that can be freed: it has no leaves but those that `freewalk` panics at, if it
may. -/
def Bare (E : Stop → Prop) (w : Addr → Page) (l : Nat) (a : Addr) : Prop :=
  Radix.Inner fmt w l a ∧ ∀ i e, Radix.look fmt w i l a = some e →
    e &&& (pteR ||| pteW ||| pteX) ≠ 0 ∧ E .freewalkLeaf

theorem Bare.congr (h : Bare E w l a)
    (same : ∀ x ∈ Radix.nodes fmt w l a, w' x = w x) : Bare E w' l a :=
  ⟨h.1.congr same, fun i e he => h.2 i e (by rwa [Radix.look_congr same] at he)⟩

theorem Bare.child (h : Bare E w (l + 1) a)
    (hc : fmt.child (w a i) = some c) : fmt.inner (w a i) ∧ Bare E w l c := by
  obtain ⟨flags, inner⟩ := h.1 i c hc
  refine ⟨flags, inner, fun j e he => h.2 (update j (l + 1) i) e ?_⟩
  have low : Radix.slot fmt w (update j (l + 1) i) l c = Radix.slot fmt w j l c :=
    Radix.slot_ext fun m hm => update_of_ne (by omega) ..
  rwa [Radix.look, Radix.slot, update_self, hc, Option.bind_some, low]

/-- A subtree without leaves. -/
def Clear (w : Addr → Page) (l : Nat) (a : Addr) : Prop := ∀ i, Radix.look fmt w i l a = none

theorem Clear.of_children
    (h : ∀ i c, fmt.child (w a i) = some c → Clear w l c) : Clear w (l + 1) a := by
  intro i
  rw [Radix.look, Radix.slot]
  cases hc : fmt.child (w a (i (l + 1))) with
  | none => rfl
  | some c => exact h _ c hc i

theorem wp_freewalk_lowest (h : Bare E m.word 0 a) : wp (is.forM (freewalkEntry free a)) E
      (fun _ m' => m' = m ∧ ∀ i ∈ is, m.word a i &&& pteV = 0) m := by
  induction is with
  | nil => exact ⟨rfl, nofun⟩
  | cons i is ih =>
    simp only [wp_forM_cons, freewalkEntry, wp_bind, load, wp_get, wp_pure]
    by_cases valid : m.word a i &&& pteV = 0
    · rw [if_neg (by simp [valid]), if_neg (by simp [valid])]
      exact ih.mono (fun _ m' h => ⟨h.1, forall_mem_cons.mpr ⟨valid, h.2⟩⟩) fun _ => id
    · obtain ⟨leaf, err⟩ := h.2 (fun _ => i) (m.word a i) (by simp [Radix.look, Radix.slot, fmt, valid])
      rwa [if_neg fun pointer => leaf pointer.2, if_pos valid]

/-- The loop over the entries of an inner page-table page, when `free` frees what is below one. -/
theorem wp_freewalk_inner (nd : is.Nodup)
    (rec : ∀ {m c R}, Holds k m (R + Radix.nodes fmt m.word l c) → Bare E m.word l c →
      wp (free c) E (fun _ m' => Holds k m' R ∧ Kept R m m' ∧ Clear m.word l c) m)
    (h : Holds k m (R + a ::ₘ below m.word l a is))
    (bare : ∀ i ∈ is, ∀ c, fmt.child (m.word a i) = some c →
      fmt.inner (m.word a i) ∧ Bare E m.word l c) :
    wp (is.forM (freewalkEntry free a)) E (fun _ m' => Holds k m' (R + {a}) ∧ Kept R m m' ∧
      ∀ i ∈ is, ∀ c, fmt.child (m.word a i) = some c → Clear m.word l c) m := by
  induction is generalizing m with
  | nil =>
    refine ⟨?_, .refl, (by intros; contradiction)⟩
    simpa [below] using h
  | cons i is ih =>
    obtain ⟨fresh, nd⟩ := nodup_cons.mp nd
    simp only [wp_forM_cons, freewalkEntry, wp_bind, load, wp_get, wp_pure]
    cases hc : fmt.child (m.word a i) with
    | none =>
      have invalid := child_eq_none.mp hc
      rw [if_neg (by simp [invalid]), if_neg (by simp [invalid])]
      have held : Holds k m (R + a ::ₘ below m.word l a is) := by simpa [below, hc] using h
      refine (ih nd held fun j hj => bare j (mem_cons_of_mem i hj)).mono
        (fun _ m' h => ⟨h.1, h.2.1, forall_mem_cons.mpr ⟨?_, h.2.2⟩⟩) fun _ => id
      rw [hc]
      intros; contradiction
    | some c =>
      obtain ⟨valid, pa⟩ := child_eq_some.mp hc
      obtain ⟨flags, bare_c⟩ := bare i (mem_cons_self ..) c hc
      rw [if_pos ⟨valid, flags⟩, wp_bind, pa]
      -- the pages that stay held while the child is freed
      generalize hS : R + a ::ₘ below m.word l a is = S
      have held : Holds k m (S + Radix.nodes fmt m.word l c) := by
        have : below m.word l a (i :: is) = Radix.nodes fmt m.word l c + below m.word l a is := by
          simp [below, hc]
        rwa [this, add_comm (Radix.nodes _ _ _ _), ← cons_add, ← add_assoc, hS] at h
      refine (rec held bare_c).mono (fun _ m1 freed => ?_) fun _ => id
      obtain ⟨h₁, kept, clear⟩ := freed
      simp only [store, wp_modify]
      have mem : ∀ {x}, x ∈ R ∨ x = a ∨ x ∈ below m.word l a is → x ∈ S := by
        intro x hx
        rwa [← hS, Multiset.mem_add, Multiset.mem_cons]
      have nd1 := h₁.held_nodup
      rw [← hS] at nd1
      have out : ∀ x ∈ below m.word l a is, x ≠ a := by
        rintro x hx rfl
        exact (nodup_cons.mp (nodup_add.mp nd1).2.1).1 hx
      have same : ∀ x ∈ below m.word l a is, (m1.setWord (a, i) 0).word x = m.word x := fun x hx =>
        (update_of_ne (out x hx) ..).trans (kept x (mem (.inr (.inr hx))))
      have root : ∀ j ∈ is, (m1.setWord (a, i) 0).word a j = m.word a j := by
        intro j hj
        have ne : j ≠ i := fun e => fresh (e ▸ hj)
        rw [Mem.setWord_self, if_neg ne, kept a (mem (.inr (.inl rfl)))]
      have keptR : Kept R m (m1.setWord (a, i) 0) := by
        intro x hx
        refine (update_of_ne ?_ ..).trans (kept x (mem (.inl hx)))
        rintro rfl
        exact disjoint_left.mp (nodup_add.mp nd1).2.2 hx
          (mem_cons_self ..)
      refine (ih nd ?_ fun j hj c' hj' => ?_).mono (fun _ m' h => ⟨h.1, keptR.trans h.2.1,
        forall_mem_cons.mpr ⟨?_, fun j hj c' hj' => ?_⟩⟩) fun _ => id
      · rw [below_congr root same, hS]
        exact ⟨h₁.part, h₁.once⟩
      · rw [root j hj] at hj' ⊢
        obtain ⟨flags', bare'⟩ := bare j (mem_cons_of_mem i hj) c' hj'
        exact ⟨flags', bare'.congr fun x hx => same x (mem_below hj hj' hx)⟩
      · rintro c' hc'
        obtain rfl : c = c' := by simpa [hc] using hc'
        exact clear
      · have clear' := h.2.2 j hj c' (by rwa [root j hj])
        intro i
        rw [← Radix.look_congr fun x hx => same x (mem_below hj hj' hx)]
        exact clear' i

theorem exists_entries : ∃ is : List (Fin 512), is.Nodup ∧ (∀ {w l a},
    Radix.nodes fmt w (l + 1) a = a ::ₘ below w l a is) ∧ (∀ {k d a},
    freewalk k (d + 1) a = (is.forM (freewalkEntry (freewalk k d) a) >>= fun _ => kfree k a)) ∧
    ∀ i, i ∈ is :=
  ⟨List.finRange 512, nodup_finRange 512, nodes_eq_below,
    fun {k d a} => freewalk_succ k d a, mem_finRange⟩

theorem wp_freewalk_root (h : Holds k m1 (R + {a})) (kept : Kept R m m1)
    (clear : C) : wp (kfree k a) E (fun _ m' => Holds k m' R ∧ Kept R m m' ∧ C) m1 := by
  rw [add_comm, singleton_add] at h
  have nd := nodup_cons.mp h.held_nodup
  refine wp_kfree h fun m' h' same => ⟨h', fun x hx => ?_, clear⟩
  refine (same x ?_).trans (kept x hx)
  rintro rfl
  exact nd.1 hx

/-- `freewalk` of a table without leaves frees each of its page-table pages once; it does not return
from one with leaves. -/
theorem wp_freewalk (deep : l < depth) (h : Holds k m (R + Radix.nodes fmt m.word l a))
    (bare : Bare E m.word l a) :
    wp (freewalk k depth a) E (fun _ m' => Holds k m' R ∧ Kept R m m' ∧ Clear m.word l a) m := by
  obtain ⟨is, nd, nodes, body, all⟩ := exists_entries
  induction l generalizing depth m R a with
  | zero =>
    obtain ⟨d, rfl⟩ : ∃ d, depth = d + 1 := ⟨depth - 1, by omega⟩
    rw [body, wp_bind]
    refine (wp_freewalk_lowest bare).mono (fun _ m1 e => ?_) fun _ => id
    rw [Radix.nodes] at h
    obtain ⟨rfl, invalid⟩ := e
    refine wp_freewalk_root h .refl fun i => ?_
    simp [Radix.look, Radix.slot, fmt, invalid (i 0) (all _)]
  | succ l ih =>
    obtain ⟨d, rfl⟩ : ∃ d, depth = d + 1 := ⟨depth - 1, by omega⟩
    rw [nodes] at h
    rw [body, wp_bind]
    exact (wp_freewalk_inner nd (fun h' bare' => ih (by omega) h' bare') h
      fun i _ c hc => bare.child hc).mono (fun _ m1 e => wp_freewalk_root e.1 e.2.1
        (Clear.of_children fun i => e.2.2 i (all i))) fun _ => id

end Freewalk

end Xv6.Vm
