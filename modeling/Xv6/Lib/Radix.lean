import Mathlib

/-! Trees of tables in a memory. An entry of an inner table may point to a table of the next lower
level, and an entry of a lowest table is a leaf; a key has one index for each level. No table is
reached on two ways, so a write to the leaf of one key leaves the others alone. -/

namespace Radix

open Function Multiset Finset Option

variable {α ι β γ : Type} [Fintype ι]

/-- How entries are read, and what is required of those that point to tables. -/
structure Format (α β γ : Type) where
  child : β → Option α
  entry : β → Option γ
  inner : β → Prop

variable (F : Format α β γ)

def nodes (w : α → ι → β) : Nat → α → Multiset α
  | 0, a => {a}
  | l + 1, a => a ::ₘ ∑ i, (F.child (w a i)).elim 0 (nodes w l)

def slot (w : α → ι → β) (ix : Nat → ι) : Nat → α → Option (α × ι)
  | 0, a => some (a, ix 0)
  | l + 1, a => (F.child (w a (ix (l + 1)))).bind (slot w ix l)

def look (w : α → ι → β) (ix : Nat → ι) (l : Nat) (a : α) : Option γ :=
  (slot F w ix l a).bind fun p => F.entry (w p.1 p.2)

def Inner (w : α → ι → β) : Nat → α → Prop
  | 0, _ => True
  | l + 1, a => ∀ i c, F.child (w a i) = some c → F.inner (w a i) ∧ Inner w l c

section Frame

variable {F} {w w' : α → ι → β} {l : Nat} {a c : α} {i j : ι} {ix ix' : Nat → ι}

@[simp] theorem mem_nodes_self : a ∈ nodes F w l a := by
  cases l <;> simp [nodes]

theorem child_nodes_le (h : F.child (w a i) = some c) :
    nodes F w l c ≤ ∑ i, (F.child (w a i)).elim 0 (nodes F w l) := by
  have one := single_le_sum (s := Finset.univ)
    (f := fun i => (F.child (w a i)).elim 0 (nodes F w l)) (fun _ _ => zero_le _)
    (mem_univ i)
  simpa [h] using one

theorem mem_nodes_of_child (h : F.child (w a i) = some c) (hx : x ∈ nodes F w l c) :
    x ∈ nodes F w (l + 1) a :=
  mem_cons_of_mem (mem_of_le (child_nodes_le h) hx)

theorem exists_nodes_eq_add (h : F.child (w a i) = some c) :
    ∃ S, nodes F w (l + 1) a = S + nodes F w l c := by
  obtain ⟨S, hS⟩ := Multiset.le_iff_exists_add.mp (child_nodes_le (l := l) h)
  refine ⟨a ::ₘ S, ?_⟩
  rw [nodes, hS, Multiset.cons_add, add_comm]

theorem nodes_congr (h : ∀ x ∈ nodes F w l a, w' x = w x) : nodes F w' l a = nodes F w l a := by
  induction l generalizing a with
  | zero => rfl
  | succ l ih =>
    have root := h a mem_nodes_self
    simp only [nodes]
    congr 1
    refine sum_congr rfl fun i _ => ?_
    rw [root]
    cases hc : F.child (w a i) with
    | none => rfl
    | some c => exact ih fun x hx => h x (mem_nodes_of_child hc hx)

theorem slot_congr (h : ∀ x ∈ nodes F w l a, w' x = w x) : slot F w' ix l a = slot F w ix l a := by
  induction l generalizing a with
  | zero => rfl
  | succ l ih =>
    simp only [slot]
    rw [h a mem_nodes_self]
    cases hc : F.child (w a (ix (l + 1))) with
    | none => rfl
    | some c => exact ih fun x hx => h x (mem_nodes_of_child hc hx)

theorem slot_mem (h : slot F w ix l a = some (q, i)) : q ∈ nodes F w l a := by
  induction l generalizing a with
  | zero =>
    cases h
    exact mem_nodes_self
  | succ l ih =>
    obtain ⟨c, hc, hs⟩ := bind_eq_some_iff.mp h
    exact mem_nodes_of_child hc (ih hs)

theorem look_congr (h : ∀ x ∈ nodes F w l a, w' x = w x) : look F w' ix l a = look F w ix l a := by
  rw [look, look, slot_congr h]
  cases hs : slot F w ix l a with
  | none => rfl
  | some p =>
    rw [bind_some, bind_some, h p.1 (slot_mem hs)]

theorem Inner.congr (hi : Inner F w l a) (h : ∀ x ∈ nodes F w l a, w' x = w x) :
    Inner F w' l a := by
  induction l generalizing a with
  | zero => trivial
  | succ l ih =>
    intro i c hc
    rw [h a mem_nodes_self] at hc ⊢
    obtain ⟨here, below⟩ := hi i c hc
    exact ⟨here, ih below fun x hx => h x (mem_nodes_of_child hc hx)⟩

end Frame

section Nodup

variable {F} {w : α → ι → β} {l : Nat} {a c c' : α} {i j : ι} {ix ix' : Nat → ι}

theorem root_not_below (nd : (nodes F w (l + 1) a).Nodup) (h : F.child (w a i) = some c) :
    a ∉ nodes F w l c := fun hm =>
  (nodup_cons.mp nd).1 (mem_of_le (child_nodes_le h) hm)

theorem nodup_child (nd : (nodes F w (l + 1) a).Nodup) (h : F.child (w a i) = some c) :
    (nodes F w l c).Nodup :=
  nodup_of_le (child_nodes_le h) (nodup_cons.mp nd).2

theorem disjoint_children (nd : (nodes F w (l + 1) a).Nodup) (ne : i ≠ j)
    (hi : F.child (w a i) = some c) (hj : F.child (w a j) = some c')
    (hx : x ∈ nodes F w l c) : x ∉ nodes F w l c' := by
  classical
  have both : nodes F w l c + nodes F w l c' ≤
      ∑ i, (F.child (w a i)).elim 0 (nodes F w l) := by
    have pair := sum_le_sum_of_subset (subset_univ {i, j})
      (f := fun i => (F.child (w a i)).elim 0 (nodes F w l))
    rw [Finset.sum_pair ne] at pair
    simpa [hi, hj] using pair
  have nd' := Multiset.nodup_of_le both (Multiset.nodup_cons.mp nd).2
  exact Multiset.disjoint_left.mp (Multiset.nodup_add.mp nd').2.2 hx

omit [Fintype ι] in
theorem slot_ext (h : ∀ m ≤ l, ix m = ix' m) : slot F w ix l a = slot F w ix' l a := by
  induction l generalizing a with
  | zero => simp [slot, h 0 le_rfl]
  | succ l ih =>
    simp only [slot]
    rw [h (l + 1) le_rfl]
    cases F.child (w a (ix' (l + 1))) with
    | none => rfl
    | some c => exact ih fun m hm => h m (by omega)

theorem slot_inj (nd : (nodes F w l a).Nodup) (h : slot F w ix l a = some p)
    (h' : slot F w ix' l a = some p) : ∀ m ≤ l, ix m = ix' m := by
  induction l generalizing a with
  | zero =>
    intro m hm
    obtain rfl : m = 0 := by omega
    have := h.trans h'.symm
    simp only [slot, Option.some.injEq, Prod.mk.injEq, true_and] at this
    exact this
  | succ l ih =>
    obtain ⟨c, hc, hs⟩ := bind_eq_some_iff.mp h
    obtain ⟨c', hc', hs'⟩ := bind_eq_some_iff.mp h'
    have top : ix (l + 1) = ix' (l + 1) := by
      by_contra ne
      exact disjoint_children nd ne hc hc' (slot_mem hs) (slot_mem hs')
    rw [top] at hc
    obtain rfl : c = c' := by
      rw [hc] at hc'
      cases hc'
      rfl
    intro m hm
    by_cases hml : m = l + 1
    · rw [hml, top]
    · exact ih (nodup_child nd hc) hs hs' m (by omega)

theorem not_mem_of_slot (nd : (nodes F w (l + 1) a).Nodup)
    (hc : F.child (w a (ix (l + 1))) = some c) (hs : slot F w ix l c = some (q, i))
    (hj : F.child (w a j) = some c') (ne : j ≠ ix (l + 1)) : q ∉ nodes F w l c' :=
  disjoint_children nd ne.symm hc hj (slot_mem hs)

theorem root_ne_of_slot (nd : (nodes F w (l + 1) a).Nodup)
    (hc : F.child (w a (ix (l + 1))) = some c) (hs : slot F w ix l c = some (q, i)) : a ≠ q := by
  rintro rfl
  exact root_not_below nd hc (slot_mem hs)

end Nodup

section Write

variable {F} [DecidableEq α] [DecidableEq ι] {w : α → ι → β} {l : Nat} {a q : α} {i : ι} {v : β}
  {ix ix' : Nat → ι}

/-- The memory with the entry `i` of the table `q` set. -/
def set (w : α → ι → β) (q : α) (i : ι) (v : β) : α → ι → β :=
  update w q (update (w q) i v)

omit [Fintype ι] in
theorem set_of_ne (h : x ≠ q) : set w q i v x = w x := update_of_ne h ..

omit [Fintype ι] in
theorem set_self : set w q i v q = update (w q) i v := update_self ..

theorem nodes_set (nd : (nodes F w l a).Nodup) (hs : slot F w ix l a = some (q, i)) :
    nodes F (set w q i v) l a = nodes F w l a := by
  induction l generalizing a with
  | zero => rfl
  | succ l ih =>
    obtain ⟨c, hc, hs⟩ := bind_eq_some_iff.mp hs
    simp only [nodes]
    rw [set_of_ne (root_ne_of_slot nd hc hs)]
    congr 1
    refine sum_congr rfl fun j _ => ?_
    cases hj : F.child (w a j) with
    | none => rfl
    | some c' =>
      by_cases ne : j = ix (l + 1)
      · obtain rfl : c = c' := by simpa [ne, hc] using hj
        exact ih (nodup_child nd hc) hs
      · refine nodes_congr fun x hx => set_of_ne ?_
        rintro rfl
        exact not_mem_of_slot nd hc hs hj ne hx

theorem slot_set (nd : (nodes F w l a).Nodup) (hs : slot F w ix l a = some (q, i)) :
    slot F (set w q i v) ix' l a = slot F w ix' l a := by
  induction l generalizing a with
  | zero => rfl
  | succ l ih =>
    obtain ⟨c, hc, hs⟩ := bind_eq_some_iff.mp hs
    simp only [slot]
    rw [set_of_ne (root_ne_of_slot nd hc hs)]
    cases hj : F.child (w a (ix' (l + 1))) with
    | none => rfl
    | some c' =>
      by_cases ne : ix' (l + 1) = ix (l + 1)
      · obtain rfl : c = c' := by simpa [ne, hc] using hj
        exact ih (nodup_child nd hc) hs
      · refine slot_congr fun x hx => set_of_ne ?_
        rintro rfl
        exact not_mem_of_slot nd hc hs hj ne hx

theorem Inner.set (hi : Inner F w l a) (nd : (nodes F w l a).Nodup)
    (hs : slot F w ix l a = some (q, i)) : Inner F (set w q i v) l a := by
  induction l generalizing a with
  | zero => trivial
  | succ l ih =>
    obtain ⟨c, hc, hs⟩ := bind_eq_some_iff.mp hs
    intro j c' hj
    rw [set_of_ne (root_ne_of_slot nd hc hs)] at hj ⊢
    obtain ⟨here, below⟩ := hi j c' hj
    refine ⟨here, ?_⟩
    by_cases ne : j = ix (l + 1)
    · obtain rfl : c = c' := by simpa [ne, hc] using hj
      exact ih below (nodup_child nd hc) hs
    · refine below.congr fun x hx => set_of_ne ?_
      rintro rfl
      exact not_mem_of_slot nd hc hs hj ne hx

theorem look_set (nd : (nodes F w l a).Nodup) (hs : slot F w ix l a = some (q, i)) :
    look F (set w q i v) ix' l a =
      if ∀ m ≤ l, ix' m = ix m then F.entry v else look F w ix' l a := by
  rw [look, look, slot_set nd hs]
  split
  next same =>
    rw [slot_ext same, hs, bind_some, set_self, update_self]
  next other =>
    cases hs' : slot F w ix' l a with
    | none => rfl
    | some p =>
      have ne : p ≠ (q, i) := by
        rintro rfl
        exact other (slot_inj nd hs' hs)
      rw [bind_some, bind_some]
      by_cases hq : p.1 = q
      · have hi : p.2 ≠ i := fun hi => ne (Prod.ext hq hi)
        rw [hq, set_self, update_of_ne hi]
      · rw [set_of_ne hq]

end Write

/-- The tree has got the tables `new`, and nothing else has changed. -/
structure Grew (F : Format α β γ) (w w' : α → ι → β) (l : Nat) (a : α) (new : Multiset α) :
    Prop where
  nodes : nodes F w' l a = nodes F w l a + new
  frame : ∀ x, x ∉ Radix.nodes F w l a → x ∉ new → w' x = w x
  look : ∀ ix, look F w' ix l a = look F w ix l a
  inner : Inner F w l a → Inner F w' l a

section Grow

variable {F} {w w' w'' : α → ι → β} {l : Nat} {a c : α} {i : ι} {z v : β} {new new' : Multiset α}

theorem Grew.refl : Grew F w w l a 0 :=
  ⟨(add_zero _).symm, fun _ _ _ => rfl, fun _ => rfl, id⟩

theorem Grew.trans (g : Grew F w w' l a new) (g' : Grew F w' w'' l a new') :
    Grew F w w'' l a (new + new') where
  nodes := by rw [g'.nodes, g.nodes, add_assoc]
  frame x hx hnew := by
    simp only [mem_add, not_or] at hnew
    rw [g'.frame x (by rw [g.nodes]; simp [hx, hnew.1]) hnew.2, g.frame x hx hnew.1]
  look ix := (g'.look ix).trans (g.look ix)
  inner h := g'.inner (g.inner h)

theorem Grew.lift (g : Grew F w w' l c new) (nd : (Radix.nodes F w (l + 1) a).Nodup)
    (hc : F.child (w a i) = some c) (fresh : ∀ x ∈ new, x ∉ Radix.nodes F w (l + 1) a) :
    Grew F w w' (l + 1) a new := by
  classical
  have root : w' a = w a :=
    g.frame a (root_not_below nd hc) fun h => fresh a h mem_nodes_self
  have others : ∀ {j c'}, j ≠ i → F.child (w a j) = some c' →
      ∀ x ∈ Radix.nodes F w l c', w' x = w x := by
    intro j c' ne hj x hx
    exact g.frame x (disjoint_children nd ne hj hc hx) fun h => fresh x h (mem_nodes_of_child hj hx)
  refine ⟨?_, fun x hx hnew => ?_, fun ix => ?_, fun h j c' hj => ?_⟩
  · simp only [Radix.nodes]
    rw [root, ← add_sum_erase _ _ (mem_univ i),
      ← add_sum_erase _ _ (mem_univ i), cons_add]
    congr 1
    rw [hc, elim_some, elim_some, g.nodes, add_assoc, add_assoc, add_comm new]
    congr 2
    refine sum_congr rfl fun j hj => ?_
    cases hj' : F.child (w a j) with
    | none => rfl
    | some c' => exact nodes_congr (others (ne_of_mem_erase hj) hj')
  · exact g.frame x (fun h => hx (mem_nodes_of_child hc h)) hnew
  · by_cases hi : ix (l + 1) = i
    · have step : ∀ u : α → ι → β, u a = w a → Radix.look F u ix (l + 1) a = Radix.look F u ix l c := by
        intro u hu
        rw [Radix.look, slot, hu, hi, hc]
        rfl
      rw [step w' root, step w rfl, g.look]
    · rw [Radix.look, Radix.look, slot, slot, root]
      cases hj : F.child (w a (ix (l + 1))) with
      | none => rfl
      | some c' => exact look_congr (others hi hj)
  · rw [root] at hj ⊢
    obtain ⟨here, below⟩ := h j c' hj
    refine ⟨here, ?_⟩
    by_cases ne : j = i
    · obtain rfl : c = c' := by simpa [ne, hc] using hj
      exact g.inner below
    · exact below.congr (others ne hj)

theorem nodes_blank (blank : w c = fun _ => z) (child : F.child z = none) :
    nodes F w l c = {c} := by
  cases l with
  | zero => rfl
  | succ l => simp [nodes, blank, child]

omit [Fintype ι] in
theorem look_blank (blank : w c = fun _ => z) (child : F.child z = none)
    (entry : F.entry z = none) (ix : Nat → ι) : look F w ix l c = none := by
  cases l with
  | zero => simp [look, slot, blank, entry]
  | succ l => simp [look, slot, blank, child]

omit [Fintype ι] in
theorem inner_blank (blank : w c = fun _ => z) (child : F.child z = none) : Inner F w l c := by
  cases l with
  | zero => trivial
  | succ l =>
    intro i c' h
    rw [blank, child] at h
    cases h

theorem Grew.hang [DecidableEq α] [DecidableEq ι] (nd : (Radix.nodes F w (l + 1) a).Nodup)
    (free : F.child (w a i) = none) (fresh : c ∉ Radix.nodes F w (l + 1) a)
    (child : F.child z = none) (entry : F.entry z = none) (ptr : F.child v = some c)
    (ok : F.inner v) :
    Grew F w (set (update w c fun _ => z) a i v) (l + 1) a {c} := by
  have ne : a ≠ c := by
    rintro rfl
    exact fresh mem_nodes_self
  generalize hw' : set (update w c fun _ => z) a i v = w'
  have root : w' a = update (w a) i v := by
    rw [← hw', set_self, update_of_ne ne]
  have blank : w' c = fun _ => z := by
    rw [← hw', set_of_ne ne.symm, update_self]
  have frame : ∀ x, x ≠ a → x ≠ c → w' x = w x := by
    intro x ha hc
    rw [← hw', set_of_ne ha, update_of_ne hc]
  have others : ∀ {j c'}, F.child (w a j) = some c' → ∀ x ∈ Radix.nodes F w l c', w' x = w x := by
    intro j c' hj x hx
    refine frame x ?_ ?_
    · rintro rfl
      exact root_not_below nd hj hx
    · rintro rfl
      exact fresh (mem_nodes_of_child hj hx)
  refine ⟨?_, fun x hx hnew => ?_, fun ix => ?_, fun h j c' hj => ?_⟩
  · simp only [Radix.nodes]
    rw [← add_sum_erase _ _ (mem_univ i), root,
      ← add_sum_erase _ _ (mem_univ i), cons_add]
    congr 1
    rw [update_self, ptr, free, elim_some, elim_none, zero_add,
      nodes_blank blank child, add_comm]
    congr 1
    refine sum_congr rfl fun j hj => ?_
    rw [update_of_ne (ne_of_mem_erase hj)]
    cases hj' : F.child (w a j) with
    | none => rfl
    | some c' => exact nodes_congr (others hj')
  · refine frame x ?_ (by simpa using hnew)
    rintro rfl
    exact hx mem_nodes_self
  · rw [Radix.look, Radix.look, slot, slot, root]
    by_cases hi : ix (l + 1) = i
    · rw [hi, update_self, ptr, free]
      exact look_blank blank child entry ix
    · rw [update_of_ne hi]
      cases hj : F.child (w a (ix (l + 1))) with
      | none => rfl
      | some c' => exact look_congr (others hj)
  · rw [root] at hj ⊢
    by_cases hji : j = i
    · rw [hji, update_self] at hj ⊢
      obtain rfl : c = c' := by simpa [ptr] using hj
      exact ⟨ok, inner_blank blank child⟩
    · rw [update_of_ne hji] at hj ⊢
      obtain ⟨here, below⟩ := h j c' hj
      exact ⟨here, below.congr (others hj)⟩

end Grow

-- the sum over the indices is not to be unfolded when tables have hundreds of entries
attribute [irreducible] nodes

end Radix
