import Xv6.Vm.Refinement
import Xv6.Vm.Space

/-! `copyin`, `copyinstr` and `copyout`, byte by byte; the first two with what they write to the
kernel's buffer also when they fail. -/

namespace Xv6.Vm

open Wp Function List Multiset UInt64 Option

def byteOf (w : UInt64) (j : Nat) : UInt8 := (w >>> UInt64.ofNat (8 * j)).toUInt8

def pageByte (v : Page) (j : Nat) : UInt8 := byteOf (v (Fin.ofNat 512 (j / 8))) (j % 8)

/-- The `n` bytes of a page from the offset `off` on. -/
def readBytes (v : Page) (off : Nat) : Nat → List UInt8
  | 0 => []
  | n + 1 => pageByte v off :: readBytes v (off + 1) n

/-- The loop of `copyin`, which copies at least one byte in a pass. -/
def copyinLoop (pagetable : Addr) : Nat → UInt64 → Nat → M (Bool × List UInt8)
  | _, _, 0 => return (true, [])
  | 0, _, _ => return (true, [])
  | fuel + 1, srcva, len => do
    let va0 := pgrounddown srcva
    let pa0 ← walkaddr pagetable va0
    if pa0 = 0 then return (false, [])
    else
      let n := min (pgsize - (srcva - va0)).toNat len
      let bytes := readBytes ((← get).word pa0) (srcva - va0).toNat n
      let r ← copyinLoop pagetable fuel (va0 + pgsize) (len - n)
      return (r.1, bytes ++ r.2)

/-- `copyin`; whether it returns 0, and the bytes that it has written. -/
def copyin (pagetable : Addr) (srcva : UInt64) (len : Nat) : M (Bool × List UInt8) :=
  copyinLoop pagetable len srcva len

/-- The inner loop of `copyinstr`: whether it has got the NUL, and the bytes that it has written. -/
def copyinstrBytes (v : Page) : Nat → Nat → Bool × List UInt8
  | 0, _ => (false, [])
  | n + 1, p =>
    if pageByte v p = 0 then (true, [0])
    else
      let r := copyinstrBytes v n (p + 1)
      (r.1, pageByte v p :: r.2)

/-- The loop of `copyinstr`. -/
def copyinstrLoop (pagetable : Addr) : Nat → UInt64 → Nat → M (Bool × List UInt8)
  | _, _, 0 => return (false, [])
  | 0, _, _ => return (false, [])
  | fuel + 1, srcva, max => do
    let va0 := pgrounddown srcva
    let pa0 ← walkaddr pagetable va0
    if pa0 = 0 then return (false, [])
    else
      let n := min (pgsize - (srcva - va0)).toNat max
      let r := copyinstrBytes ((← get).word pa0) n (srcva - va0).toNat
      if r.1 then return r
      else
        let r' ← copyinstrLoop pagetable fuel (va0 + pgsize) (max - n)
        return (r'.1, r.2 ++ r'.2)

/-- `copyinstr`; whether it returns 0, and the bytes that it has written. -/
def copyinstr (pagetable : Addr) (srcva : UInt64) (max : Nat) : M (Bool × List UInt8) :=
  copyinstrLoop pagetable max srcva max

variable {k : Symbols} {m m' : Mem} {R : Multiset Addr} {pt x tf : Addr} {f : Map} {E : Stop → Prop}
  {va : UInt64} {a i j n len v off fuel : Nat} {b : UInt8} {src : List UInt8}

section Bytes

theorem byteOf_bit (hj : j < 8) (hn : n < 8) :
    (byteOf w j).toBitVec.getLsbD n = w.toBitVec.getLsbD (8 * j + n) := by
  have shift : 8 * j % 18446744073709551616 % 64 = 8 * j := by omega
  simp [byteOf, hn, shift]

theorem mask_bit : (255#64).getLsbD n = decide (n < 8) := by
  rw [show 255#64 = (BitVec.allOnes 8).setWidth 64 from rfl, BitVec.getLsbD_setWidth,
    BitVec.getLsbD_allOnes]
  simp only [Bool.and_eq_right_iff_imp, decide_eq_true_eq]
  omega

theorem byteOf_setByte (hi : i < 8) (hj : j < 8) :
    byteOf (setByte w i b) j = if j = i then b else byteOf w j := by
  apply UInt8.toBitVec_inj.mp
  apply BitVec.eq_of_getLsbD_eq
  intro n hn
  have shift : 8 * i % 18446744073709551616 % 64 = 8 * i := by omega
  have inside : 8 * j + n < 64 := by omega
  rw [byteOf_bit hj hn, setByte]
  split
  next same =>
    subst same
    simp [shift, inside, hn, mask_bit]
  next other =>
    rw [byteOf_bit hj hn]
    rcases Nat.lt_or_gt_of_ne other with lt | gt
    · have below : 8 * j + n < 8 * i := by omega
      simp [shift, inside, below]
    · have above : ¬8 * j + n - 8 * i < 8 := by omega
      have none := BitVec.getLsbD_of_ge b.toBitVec (8 * j + n - 8 * i) (by omega)
      simpa [shift, mask_bit, above, none] using fun _ => inside

theorem pageByte_writeBytes {v : Page} (fits : off + src.length ≤ 4096) (hj : j < 4096) :
    pageByte (writeBytes v off src) j =
      if off ≤ j then (src[j - off]?).getD (pageByte v j) else pageByte v j := by
  induction src generalizing v off with
  | nil => simp [writeBytes]
  | cons b src ih =>
    rw [length_cons] at fits
    have one : pageByte (update v (Fin.ofNat 512 (off / 8))
        (setByte (v (Fin.ofNat 512 (off / 8))) (off % 8) b)) j =
        if j = off then b else pageByte v j := by
      unfold pageByte
      by_cases word : j / 8 = off / 8
      · rw [word, update_self, byteOf_setByte (by omega) (by omega)]
        exact if_congr (by omega) rfl rfl
      · have ne : Fin.ofNat 512 (j / 8) ≠ Fin.ofNat 512 (off / 8) := fun h => by
          have h := congrArg Fin.val h
          simp only [Fin.ofNat_eq_cast, Fin.val_natCast] at h
          omega
        rw [update_of_ne ne, if_neg (by omega)]
    rw [writeBytes, ih (by omega), one]
    rcases Nat.lt_trichotomy j off with lt | rfl | gt
    · rw [if_neg (by omega), if_neg lt.ne, if_neg (by omega)]
    · rw [if_neg (by omega), if_pos rfl, if_pos le_rfl]
      simp
    · rw [if_pos (Nat.succ_le_of_lt gt), if_neg gt.ne', if_pos gt.le,
        show j - off = j - (off + 1) + 1 by omega, List.getElem?_cons_succ]

theorem length_readBytes {v : Page} : (readBytes v off n).length = n := by
  induction n generalizing off with
  | zero => rfl
  | succ n ih => rw [readBytes, length_cons, ih]

def upToNul : List UInt8 → List UInt8
  | [] => []
  | b :: bs => if b = 0 then [0] else b :: upToNul bs

variable {xs : List UInt8}

theorem upToNul_append : upToNul (xs ++ ys) = if 0 ∈ xs then upToNul xs else xs ++ upToNul ys := by
  induction xs with
  | nil => rfl
  | cons b xs ih =>
    rw [cons_append, upToNul, upToNul, ih]
    by_cases zero : b = 0
    · simp [zero]
    · by_cases rest : 0 ∈ xs
      · simp [zero, rest]
      · simp [zero, rest, Ne.symm zero]

theorem upToNul_of_not_mem (h : 0 ∉ xs) : upToNul xs = xs := by
  have whole : upToNul (xs ++ []) = _ := upToNul_append
  rwa [if_neg h, upToNul, append_nil] at whole

theorem upToNul_isPrefix : upToNul xs <+: xs := by
  induction xs with
  | nil => exact prefix_rfl
  | cons b xs ih =>
    rw [upToNul]
    split
    next zero =>
      rw [zero]
      exact ⟨xs, rfl⟩
    next => exact cons_prefix_cons.mpr ⟨rfl, ih⟩

theorem upToNul_of_mem (h : 0 ∈ xs) : ∃ s, upToNul xs = s ++ [0] ∧ 0 ∉ s := by
  induction xs with
  | nil => cases h
  | cons b xs ih =>
    by_cases zero : b = 0
    · exact ⟨[], if_pos zero, nofun⟩
    · obtain ⟨s, eq, out⟩ := ih ((mem_cons.mp h).resolve_left (Ne.symm zero))
      refine ⟨b :: s, ?_, not_mem_cons_of_ne_of_not_mem (Ne.symm zero) out⟩
      rw [upToNul, if_neg zero, eq, cons_append]

end Bytes

/-- The physical page of the user page `v`, which is valid and has PTE_U. -/
def Map.userPage (f : Map) (v : Nat) : Option Addr :=
  (f v).bind fun e => if e &&& pteU = 0 then none else some (pte2pa e)

/-- The byte at the user address `a`, if it is on a user page. -/
def userByte (m : Mem) (f : Map) (a : Nat) : Option UInt8 :=
  (f.userPage (a / 4096)).map fun x => pageByte (m.word x) (a % 4096)

/-- The user address `a` is on a user page that has PTE_W too. -/
def Map.Writable (f : Map) (a : Nat) : Prop :=
  ∃ e, f (a / 4096) = some e ∧ e &&& pteU ≠ 0 ∧ e &&& pteW ≠ 0

/-- The page table `pt` stands for the map `f`.  Its user pages are not zero, each is mapped once, and
none of them is a page-table page. -/
structure Mapped (m : Mem) (pt : Addr) (f : Map) : Prop where
  tree : Tree m.word pt f
  nonzero : ∀ v, f.userPage v ≠ some 0
  once : ∀ v v' x, f.userPage v = some x → f.userPage v' = some x → v = v'
  apart : ∀ v x, f.userPage v = some x → x ∉ tablePages m.word pt

/-- The bytes from the user address `a` on, as far as they are on user pages. -/
def userBytes (m : Mem) (f : Map) (a : Nat) : Nat → List UInt8
  | 0 => []
  | n + 1 => (userByte m f a).elim [] fun b => b :: userBytes m f (a + 1) n

section Abstract

theorem Map.userPage_eq_some :
    f.userPage v = some x ↔ ∃ e, f v = some e ∧ e &&& pteU ≠ 0 ∧ pte2pa e = x := by
  unfold Map.userPage
  cases f v with
  | none => simp
  | some e => simp

theorem getElem?_userBytes : (userBytes m f a n)[i]? = some b ↔
    i < n ∧ userByte m f (a + i) = some b ∧ ∀ j < i, userByte m f (a + j) ≠ none := by
  induction n generalizing a i with
  | zero => simp [userBytes]
  | succ n ih =>
    rw [userBytes]
    cases first : userByte m f a with
    | none =>
      refine iff_of_false (by simp) fun ⟨_, here, before⟩ => ?_
      cases i with
      | zero => exact nomatch first.symm.trans here
      | succ i => exact before 0 (Nat.succ_pos i) first
    | some b0 =>
      rw [elim_some]
      cases i with
      | zero => simp [first]
      | succ i =>
        rw [List.getElem?_cons_succ, ih, add_right_comm, add_assoc]
        refine and_congr Nat.succ_lt_succ_iff.symm (and_congr_right fun _ => ⟨fun h j hj => ?_,
          fun h j hj => ?_⟩)
        · cases j with
          | zero => simp [first]
          | succ j =>
            rw [← add_assoc, add_right_comm]
            exact h j (Nat.lt_of_succ_lt_succ hj)
        · rw [add_right_comm, add_assoc]
          exact h (j + 1) (Nat.succ_lt_succ hj)

theorem length_userBytes_le : (userBytes m f a n).length ≤ n := by
  by_contra long
  have := getElem?_userBytes.mp (List.getElem?_eq_getElem (not_le.mp long))
  exact lt_irrefl n this.1

theorem length_userBytes : (userBytes m f a n).length = n ↔
    ∀ i < n, ∃ b, userByte m f (a + i) = some b := by
  induction n generalizing a with
  | zero => simp [userBytes]
  | succ n ih =>
    rw [userBytes]
    cases first : userByte m f a with
    | none =>
      refine iff_of_false (by simp) fun all => ?_
      obtain ⟨b, hb⟩ := all 0 (Nat.succ_pos n)
      exact nomatch first.symm.trans hb
    | some b =>
      rw [elim_some, length_cons, Nat.succ_inj, ih, Nat.forall_lt_succ_left']
      simp [first, add_right_comm, add_assoc]

theorem userBytes_page (hx : f.userPage v = some x) (fits : off + n ≤ 4096) :
    userBytes m f (v * 4096 + off) (n + len) =
      readBytes (m.word x) off n ++ userBytes m f (v * 4096 + (off + n)) len := by
  induction n generalizing off with
  | zero => rw [zero_add, readBytes, nil_append, add_zero]
  | succ n ih =>
    have here : userByte m f (v * 4096 + off) = some (pageByte (m.word x) off) := by
      rw [userByte, show (v * 4096 + off) / 4096 = v by omega,
        show (v * 4096 + off) % 4096 = off by omega, hx, map_some]
    rw [Nat.succ_add, userBytes, here, elim_some, add_assoc, ih (by omega), readBytes,
      cons_append, add_right_comm off 1, add_assoc off]

theorem userBytes_pass (hx : f.userPage (a / 4096) = some x) :
    userBytes m f a len = readBytes (m.word x) (a % 4096) (min (4096 - a % 4096) len) ++
      userBytes m f (a / 4096 * 4096 + 4096) (len - min (4096 - a % 4096) len) := by
  have page : userBytes m f (a / 4096 * 4096 + a % 4096)
      (min (4096 - a % 4096) len + (len - min (4096 - a % 4096) len)) = _ :=
    userBytes_page hx (by omega)
  rw [Nat.add_sub_cancel' (min_le_right ..), Nat.div_add_mod'] at page
  rw [page]
  rcases le_total len (4096 - a % 4096) with last | more
  · rw [min_eq_right last, Nat.sub_self]
    rfl
  · rw [min_eq_left more, show a % 4096 + (4096 - a % 4096) = 4096 by omega]

end Abstract

section Loops

theorem offset_toNat : (va - pgrounddown va).toNat = va.toNat % 4096 := by
  have low : pgrounddown va ≤ va := by
    rw [UInt64.le_iff_toNat_le, pgrounddown_toNat]
    omega
  rw [UInt64.toNat_sub_of_le _ _ low, pgrounddown_toNat]
  omega

theorem chunk_toNat : (pgsize - (va - pgrounddown va)).toNat = 4096 - va.toNat % 4096 := by
  have low : va - pgrounddown va ≤ pgsize := by
    rw [UInt64.le_iff_toNat_le, offset_toNat, show pgsize.toNat = 4096 from rfl]
    omega
  rw [UInt64.toNat_sub_of_le _ _ low, offset_toNat]
  rfl

theorem next_toNat (low : va.toNat / 4096 < npages) :
    (pgrounddown va + pgsize).toNat = va.toNat / 4096 * 4096 + 4096 := by
  rw [npages_eq] at low
  rw [UInt64.toNat_add, pgrounddown_toNat, show pgsize.toNat = 4096 from rfl]
  omega

theorem Mapped.bound (t : Mapped m pt f) (hx : f.userPage v = some x) : v < npages := by
  obtain ⟨e, he, -⟩ := Map.userPage_eq_some.mp hx
  exact t.tree.bound v (by simp [he])

theorem Mapped.wp_walkaddr (t : Mapped m pt f)
    (fail : f.userPage (va.toNat / 4096) = none → Q 0 m)
    (found : ∀ x, f.userPage (va.toNat / 4096) = some x → x ≠ 0 → Q x m) :
    wp (walkaddr pt (pgrounddown va)) E Q m := by
  have page : (pgrounddown va).toNat / 4096 = va.toNat / 4096 := by
    rw [pgrounddown_toNat, Nat.mul_div_cancel _ (by decide)]
  refine Vm.wp_walkaddr t.tree (fun no => fail ?_) fun e _ he user => ?_
  · rw [page] at no
    by_contra some
    obtain ⟨x, hx⟩ := ne_none_iff_exists'.mp some
    obtain ⟨e, he, user, -⟩ := Map.userPage_eq_some.mp hx
    refine user (no ?_ e he)
    have := t.bound hx
    rw [npages_eq] at this
    rw [lt_iff_toNat_lt, pgrounddown_toNat, maxva_toNat]
    omega
  · rw [page] at he
    have hx := Map.userPage_eq_some.mpr ⟨e, he, user, rfl⟩
    exact found _ hx fun zero => t.nonzero _ (zero ▸ hx)

theorem userBytes_of_none (hx : f.userPage (a / 4096) = none) : userBytes m f a n = [] := by
  cases n with
  | zero => rfl
  | succ n => rw [userBytes, userByte, hx, map_none, elim_none]

theorem wp_copyinLoop (t : Mapped m pt f) (enough : len ≤ fuel) :
    wp (copyinLoop pt fuel va len) E (fun r m' => m' = m ∧
      r = (decide ((userBytes m f va.toNat len).length = len), userBytes m f va.toNat len)) m := by
  induction fuel generalizing va len with
  | zero =>
    obtain rfl : len = 0 := Nat.le_zero.mp enough
    exact ⟨rfl, rfl⟩
  | succ fuel ih =>
    cases len with
    | zero => exact ⟨rfl, rfl⟩
    | succ len =>
      refine .seq (t.wp_walkaddr (fun none => ?_) fun x hx ne => ?_)
      · rw [userBytes_of_none none]
        exact ⟨rfl, by simp⟩
      rw [if_neg ne]
      simp only [wp_bind, wp_get]
      rw [chunk_toNat, offset_toNat]
      refine (ih (by omega)).mono (fun r m' h => ⟨h.1, ?_⟩) fun _ => id
      rw [h.2, next_toNat (t.bound hx), userBytes_pass hx, length_append, length_readBytes]
      refine Prod.ext (decide_eq_decide.mpr ?_) rfl
      omega

theorem copyinstrBytes_eq {v : Page} : copyinstrBytes v n off =
    (decide (0 ∈ readBytes v off n), upToNul (readBytes v off n)) := by
  induction n generalizing off with
  | zero => rfl
  | succ n ih =>
    rw [copyinstrBytes, readBytes, upToNul, ih]
    by_cases zero : pageByte v off = 0
    · simp [zero]
    · simp [zero, Ne.symm zero]

theorem wp_copyinstrLoop {max : Nat} (t : Mapped m pt f) (enough : max ≤ fuel) :
    wp (copyinstrLoop pt fuel va max) E (fun r m' => m' = m ∧
      r = (decide (0 ∈ userBytes m f va.toNat max), upToNul (userBytes m f va.toNat max))) m := by
  induction fuel generalizing va max with
  | zero =>
    obtain rfl : max = 0 := Nat.le_zero.mp enough
    exact ⟨rfl, rfl⟩
  | succ fuel ih =>
    cases max with
    | zero => exact ⟨rfl, rfl⟩
    | succ max =>
      refine .seq (t.wp_walkaddr (fun none => ?_) fun x hx ne => ?_)
      · rw [userBytes_of_none none]
        exact ⟨rfl, rfl⟩
      rw [if_neg ne]
      simp only [wp_bind, wp_get]
      rw [chunk_toNat, offset_toNat, copyinstrBytes_eq, userBytes_pass hx, upToNul_append]
      refine wp_ite (fun got => ?_) fun more => ?_
      · have got := of_decide_eq_true got
        rw [if_pos got]
        exact ⟨rfl, Prod.ext (decide_eq_decide.mpr (by simp [got])) rfl⟩
      · have more := mt decide_eq_true more
        rw [if_neg more]
        refine .seq ((ih (by omega)).mono (fun r m' h => ⟨h.1, ?_⟩) fun _ => id)
        rw [h.2, next_toNat (t.bound hx)]
        refine Prod.ext (decide_eq_decide.mpr (by simp [more])) ?_
        rw [upToNul_of_not_mem more]

end Loops

section Copyout

/-- What `copyout` of `src` to the user address `a` does, which has returned `r`. -/
structure Delivered (m m' : Mem) (pt : Addr) (f : Map) (a : Nat) (src : List UInt8) (r : Bool) :
    Prop where
  mapped : Mapped m' pt f
  returns : r = true ↔ ∀ i < src.length, f.Writable (a + i)
  bytes : r = true → ∀ i b, src[i]? = some b → userByte m' f (a + i) = some b
  rest : ∀ a', a' < a ∨ a + src.length ≤ a' → userByte m' f a' = userByte m f a'
  frame : ∀ x, (∀ v, f.userPage v ≠ some x) → m'.word x = m.word x
  same : m' = { m with word := m'.word }

section

variable (t : Mapped m pt f)

include t

theorem Mapped.table_setPage (hx : f.userPage v = some x)
    (hy : y ∈ tablePages m.word pt) : (m.setPage x p).word y = m.word y := by
  refine Mem.setPage_of_ne ?_
  rintro rfl
  exact t.apart v y hx hy

theorem Mapped.setPage (hx : f.userPage v = some x) (p : Page) :
    Mapped (m.setPage x p) pt f where
  tree := t.tree.congr fun _ => t.table_setPage hx
  nonzero := t.nonzero
  once := t.once
  apart v' y hy := by
    rw [tablePages, Radix.nodes_congr fun _ => t.table_setPage hx]
    exact t.apart v' y hy

theorem Mapped.userByte_setPage (hx : f.userPage v = some x) : userByte (m.setPage x p) f a =
      if a / 4096 = v then some (pageByte p (a % 4096)) else userByte m f a := by
  unfold userByte
  split
  next here => rw [here, hx, map_some, Mem.setPage_self]
  next other =>
    cases hy : f.userPage (a / 4096) with
    | none => rfl
    | some y =>
      have ne : y ≠ x := fun e => other (t.once _ _ _ (e ▸ hy) hx)
      rw [map_some, map_some, Mem.setPage_of_ne ne]

theorem Delivered.fail (pos : 0 < src.length) (no : ¬f.Writable a) :
    Delivered m m pt f a src false where
  mapped := t
  returns := iff_of_false nofun fun all => no (all 0 pos)
  bytes := nofun
  rest _ _ := rfl
  frame _ _ := rfl
  same := rfl

theorem Delivered.nil : Delivered m m pt f a [] true where
  mapped := t
  returns := iff_of_true rfl nofun
  bytes _ _ _ := nofun
  rest _ _ := rfl
  frame _ _ := rfl
  same := rfl

/-- A pass writes the part of `src` that goes to one page, and the loop goes on with the rest. -/
theorem Delivered.pass (write : f.Writable a) (hx : f.userPage (a / 4096) = some x)
    (h : Delivered (m.setPage x (writeBytes (m.word x) (a % 4096) (src.take (4096 - a % 4096)))) m' pt f
      (a / 4096 * 4096 + 4096) (src.drop (4096 - a % 4096)) r) : Delivered m m' pt f a src r := by
  have fits : a % 4096 + (src.take (4096 - a % 4096)).length ≤ 4096 := by
    rw [length_take]
    omega
  have first : ∀ a', a' / 4096 = a / 4096 → userByte m' f a' = some (if a ≤ a' then
      (src[a' - a]?).getD (pageByte (m.word x) (a' % 4096)) else pageByte (m.word x) (a' % 4096)) := by
    intro a' same
    rw [h.rest a' (by omega), t.userByte_setPage hx, if_pos same,
      pageByte_writeBytes fits (Nat.mod_lt _ (by decide)), Option.some.injEq]
    refine if_congr (by omega) ?_ rfl
    rw [show a' % 4096 - a % 4096 = a' - a by omega, List.getElem?_take_of_lt (by omega)]
  refine ⟨h.mapped, h.returns.trans ⟨fun all i hi => ?_, fun all i hi => ?_⟩, fun ok i b hb => ?_,
    fun a' out => ?_, fun y hy => (h.frame y hy).trans (Mem.setPage_of_ne ?_), h.same⟩
  · by_cases here : (a + i) / 4096 = a / 4096
    · rwa [Map.Writable, here]
    · have later := all (i - (4096 - a % 4096)) (by rw [length_drop]; omega)
      rwa [show a / 4096 * 4096 + 4096 + (i - (4096 - a % 4096)) = a + i by omega] at later
  · rw [length_drop] at hi
    have later := all (i + (4096 - a % 4096)) (by omega)
    rwa [show a + (i + (4096 - a % 4096)) = a / 4096 * 4096 + 4096 + i by omega] at later
  · by_cases here : (a + i) / 4096 = a / 4096
    · rw [first _ here, if_pos (by omega), Nat.add_sub_cancel_left, hb, getD_some]
    · have later := h.bytes ok (i - (4096 - a % 4096)) b (by
        rwa [List.getElem?_drop, Nat.add_sub_cancel' (by omega)])
      rwa [show a / 4096 * 4096 + 4096 + (i - (4096 - a % 4096)) = a + i by omega] at later
  · by_cases here : a' / 4096 = a / 4096
    · have old : userByte m f a' = some (pageByte (m.word x) (a' % 4096)) := by
        rw [userByte, here, hx, map_some]
      rw [first a' here, old, Option.some.injEq]
      split
      next above => rw [List.getElem?_eq_none (by omega), getD_none]
      next => rfl
    · rw [h.rest a' (by rw [length_drop]; omega), t.userByte_setPage hx, if_neg here]
  · rintro rfl
    exact hy _ hx

theorem wp_copyoutLoop_bytes (enough : src.length ≤ fuel) :
    wp (copyoutLoop pt fuel va src) E (fun r m' => Delivered m m' pt f va.toNat src r) m := by
  induction fuel generalizing m va src with
  | zero =>
    obtain rfl := length_eq_zero_iff.mp (Nat.le_zero.mp enough)
    exact .nil t
  | succ fuel ih =>
    cases src with
    | nil => exact .nil t
    | cons b src =>
      refine t.tree.wp_copyoutPass (fun no => .fail t (Nat.succ_pos _) no) fun e _ _ he ok hr hp => ?_
      subst hr hp
      have hx := Map.userPage_eq_some.mpr ⟨e, he, ok.1, rfl⟩
      rw [chunk_toNat, offset_toNat]
      refine (ih (t.setPage hx _) ?_).mono (fun r m' rest => ?_) fun _ => id
      · rw [length_drop, length_cons] at *
        omega
      · rw [next_toNat (t.bound hx)] at rest
        exact .pass t ⟨_, he, ok⟩ hx rest

end

end Copyout

/-- The address spaces of processes are such tables. -/
theorem User.mapped (u : User k m R pt f) (top : Top k f tf) : Mapped m pt f := by
  have low : ∀ v x, f.userPage v = some x → v < trapframePn ∧ x ∈ f.user := by
    intro v x hx
    obtain ⟨e, he, user, rfl⟩ := Map.userPage_eq_some.mp hx
    have := top.user_lt u he user
    exact ⟨this, Map.mem_user this he⟩
  have nd := nodup_add.mp u.table.holds.held_nodup
  refine ⟨u.table.toTree, fun v hx => ?_, fun v v' x hx hx' => ?_, fun v x hx =>
    u.table.not_mem (mem_add.mpr (.inr (low v x hx).2))⟩
  · obtain ⟨-, above, -⟩ := mem_pages (u.table.holds.mem_pages
      (mem_add.mpr (.inl (mem_add.mpr (.inr (low v 0 hx).2)))))
    have := le_iff_toNat_le.mp above
    have := lt_iff_toNat_lt.mp k.trampoline_lt
    have : UInt64.toNat 0 = 0 := rfl
    omega
  · by_contra ne
    obtain ⟨e, he, -, page⟩ := Map.userPage_eq_some.mp hx
    obtain ⟨e', he', -, page'⟩ := Map.userPage_eq_some.mp hx'
    have pages := (nodup_add.mp nd.1).2.1
    have := (low v x hx).1
    have := (low v' x hx').1
    rw [Map.user, Map.pages_split (Nat.zero_le v) (by omega), he, elim_some, page,
      Map.pages_split (Nat.zero_le v') (by omega), update_of_ne (Ne.symm ne), he',
      elim_some, page', singleton_add, singleton_add] at pages
    exact (nodup_cons.mp pages).1 (mem_cons_self ..)

/-- For every user address and length: `copyin` returns 0 iff all bytes of the range are on user
pages, and then it has copied them; `copyinstr` iff there is a NUL among the first `max` bytes and
the bytes up to it are on user pages, and then it has copied the string; `copyout` iff all bytes are
on user pages with PTE_W, and then it has changed these bytes and no others. When they fail they
have read and written bytes of user pages only. -/
theorem user_copies (t : Mapped m pt f) (va : UInt64) :
    (∀ a b, userByte m f a = some b → a < maxva.toNat) ∧
    (∀ len, ∃ r bytes, copyin pt va len m = .ok ((r, bytes), m) ∧
      (r = true ↔ ∀ i < len, ∃ b, userByte m f (va.toNat + i) = some b) ∧
      (r = true → bytes.length = len) ∧
      ∀ i b, bytes[i]? = some b → userByte m f (va.toNat + i) = some b) ∧
    (∀ max, ∃ r bytes, copyinstr pt va max m = .ok ((r, bytes), m) ∧
      (r = true ↔ ∃ n < max, userByte m f (va.toNat + n) = some 0 ∧
        ∀ i < n, userByte m f (va.toNat + i) ≠ none) ∧
      (r = true → ∃ s, bytes = s ++ [0] ∧ 0 ∉ s) ∧ bytes.length ≤ max ∧
      ∀ i b, bytes[i]? = some b → userByte m f (va.toNat + i) = some b) ∧
    ∀ src, ∃ r m', copyout pt va src m = .ok (r, m') ∧ Delivered m m' pt f va.toNat src r := by
  refine ⟨fun a b hb => ?_, fun len => ?_, fun max => ?_, fun src =>
    (wp_copyoutLoop_bytes t le_rfl).exists_ok⟩
  · obtain ⟨x, hx, -⟩ := map_eq_some_iff.mp hb
    have := t.bound hx
    rw [npages_eq] at this
    rw [maxva_toNat]
    omega
  · have copied : wp (copyin pt va len) (fun _ => False) _ m := wp_copyinLoop t le_rfl
    obtain ⟨r, m', run, rfl, rfl⟩ := copied.exists_ok
    refine ⟨_, _, run, ?_, of_decide_eq_true, fun i b hb => (getElem?_userBytes.mp hb).2.1⟩
    rw [decide_eq_true_iff, length_userBytes]
  · have copied : wp (copyinstr pt va max) (fun _ => False) _ m := wp_copyinstrLoop t le_rfl
    obtain ⟨r, m', run, rfl, rfl⟩ := copied.exists_ok
    refine ⟨_, _, run, ?_, fun h => upToNul_of_mem (of_decide_eq_true h),
      upToNul_isPrefix.length_le.trans length_userBytes_le, fun i b hb => ?_⟩
    · rw [decide_eq_true_iff, mem_iff_getElem?]
      simp only [getElem?_userBytes]
    · obtain ⟨hi, rfl⟩ := List.getElem?_eq_some_iff.mp hb
      exact (getElem?_userBytes.mp (prefix_iff_getElem?.mp upToNul_isPrefix i hi)).2.1

/-- An address space of one page. -/
def onePage : M (Option (Addr × UInt64)) := do
  match ← procPagetable eightPages 0x87FFF000 with
  | none => return none
  | some pt => return some (pt, ← uvmalloc eightPages pt 0 4096 pteW)

theorem user_copies_page : ∃ m pt f, userByte m f 4000 = some 0 ∧
    ∃ bytes, copyin pt 4000 96 m = .ok ((true, bytes), m) ∧ bytes.length = 96 := by
  have start : Holds eightPages eightPages.mem 0 := ⟨add_zero _, rfl⟩
  have made : wp onePage (fun _ => False) (fun r m => ∀ pt sz, r = some (pt, sz) → sz ≠ 0 →
      ∃ f, Mapped m pt f ∧ ∀ a < 4096, userByte m f a = some 0) eightPages.mem := by
    refine .seq (wp_procPagetable start (fun _ _ _ _ _ => (by intros; contradiction))
      fun pt f m₁ u top none _ => .seq ?_)
    refine wp_uvmalloc u (by rw [top.trapframe]; rintro ⟨⟩) (by decide) (by decide)
      (.inl fun v hv => iff_of_false (not_not_intro (none v hv)) (Nat.not_lt_zero v))
      (fun _ _ _ _ _ h ne => ?_) fun r g m₂ _ eq _ u₂ grown fresh _ pt' sz h _ => ?_
    · cases h
      exact absurd rfl ne
    cases h
    obtain rfl : r = 4096 := eq
    have top₂ : Top eightPages g 0x87FFF000 := ⟨(grown.same _ (by decide)).trans top.trampoline,
      (grown.same _ (by decide)).trans top.trapframe⟩
    refine ⟨g, u₂.mapped top₂, fun a ha => ?_⟩
    obtain ⟨e, he⟩ := ne_none_iff_exists'.mp (grown.after 0 (by decide) (by decide))
    obtain ⟨zero, flags⟩ := fresh 0 e (by decide) (by decide) he
    have hx : g.userPage 0 = some (pte2pa e) :=
      Map.userPage_eq_some.mpr ⟨e, he, by rw [and_flags (by decide), flags]; decide, rfl⟩
    rw [userByte, Nat.div_eq_of_lt ha, hx, map_some, zero]
    simp [pageByte, byteOf]
  have ran : (onePage eightPages.mem).toOption.any (·.1.any (·.2 = 4096)) = true := by
    decide +kernel
  obtain ⟨r, m, run, h⟩ := made.exists_ok
  rw [run] at ran
  cases r with
  | none => cases ran
  | some r =>
    obtain ⟨pt, sz⟩ := r
    obtain ⟨f, t, zero⟩ := h pt sz rfl (by rw [show sz = 4096 from of_decide_eq_true ran]; decide)
    obtain ⟨-, copies, -⟩ := user_copies t 4000
    obtain ⟨r, bytes, call, ok, length, -⟩ := copies 96
    obtain rfl : r = true := ok.mpr fun i hi => ⟨0, zero _ (by
      rw [show UInt64.toNat 4000 = 4000 from rfl]
      omega)⟩
    exact ⟨m, pt, f, zero 4000 (by decide), bytes, call, length rfl⟩

end Xv6.Vm
