import Mathlib

/-! A ring buffer whose two counters run freely: the elements stand between them, modulo the
capacity. -/

namespace Ring

open Function List

variable {α : Type*} {cap : Nat} [NeZero cap]

def cell (cap : Nat) [NeZero cap] (i : Nat) : Fin cap := ⟨i % cap, Nat.mod_lt _ (NeZero.pos cap)⟩

def contents (data : Fin cap → α) (r len : Nat) : List α :=
  (List.range len).map fun k => data (cell cap (r + k))

theorem cell_eq_iff : cell cap i = cell cap j ↔ i % cap = j % cap := by
  simp [cell]

theorem cell_ne (hjk : j < k) (hk : k < j + cap) : cell cap (r + j) ≠ cell cap (r + k) := by
  intro h
  have hmod : (r + j) % cap = (r + k) % cap := cell_eq_iff.mp h
  have hdvd : cap ∣ (r + k) - (r + j) := (Nat.modEq_iff_dvd' (by omega)).mp hmod
  have hle := Nat.le_of_dvd (by omega) hdvd
  omega

theorem contents_push (data : Fin cap → α) (r len : Nat) (x : α) (room : len < cap) :
    contents (update data (cell cap (r + len)) x) r (len + 1) =
      contents data r len ++ [x] := by
  rw [contents, range_succ, map_append, contents]
  congr 1
  · refine map_congr_left fun k hk => ?_
    have hk : k < len := mem_range.mp hk
    exact update_of_ne (cell_ne hk (by omega)) ..
  · simp

theorem contents_pop (data : Fin cap → α) (r len : Nat) :
    contents data r (len + 1) = data (cell cap r) :: contents data (r + 1) len := by
  rw [contents, range_succ_eq_map, map_cons, map_map, contents]
  congr 1
  refine map_congr_left fun k _ => ?_
  simp [add_comm, add_left_comm]

theorem contents_dropLast (data : Fin cap → α) (r len : Nat) :
    contents data r (len - 1) = (contents data r len).dropLast := by
  cases len with
  | zero => rfl
  | succ len => simp [contents, range_succ]

theorem cell_mod (h : cap ∣ modulus) (i : Nat) : cell cap (i % modulus) = cell cap i :=
  cell_eq_iff.mpr (Nat.mod_mod_of_dvd i h)

theorem contents_mod (h : cap ∣ modulus) (data : Fin cap → α) (r len : Nat) :
    contents data (r % modulus) len = contents data r len := by
  refine map_congr_left fun k _ => ?_
  rw [cell_eq_iff.mpr]
  rw [Nat.add_mod, Nat.mod_mod_of_dvd r h, ← Nat.add_mod]

/-- The ring holds `xs` between two 16-bit counters, which wrap. -/
structure Holds (data : Fin cap → α) (first last : UInt16) (xs : List α) : Prop where
  last : last = first + UInt16.ofNat xs.length
  contents : contents data first.toNat xs.length = xs

section Counters

variable {data : Fin cap → α} {first last : UInt16} {x : α} {xs : List α}

theorem Holds.eq_iff (h : Holds data first last xs) (few : xs.length < 2 ^ 16) :
    first = last ↔ xs = [] := by
  rw [h.last, ← length_eq_zero_iff, ← UInt16.toNat_inj, UInt16.toNat_add,
    UInt16.toNat_ofNat_of_lt' few]
  have := first.toNat_lt
  omega

theorem Holds.push (h : Holds data first last xs) (wrap : cap ∣ 2 ^ 16) (room : xs.length < cap) :
    Holds (update data (cell cap last.toNat) x) first (last + 1) (xs ++ [x]) := by
  have at_ : cell cap last.toNat = cell cap (first.toNat + xs.length) := by
    rw [h.last, UInt16.toNat_add, UInt16.toNat_ofNat', Nat.add_mod_mod, cell_mod wrap]
  constructor
  · rw [h.last, length_append, length_singleton, UInt16.ofNat_add, UInt16.add_assoc]
    rfl
  · rw [at_, length_append, length_singleton, contents_push _ _ _ _ room, h.contents]

theorem Holds.pop (h : Holds data first last (x :: xs)) (wrap : cap ∣ 2 ^ 16) :
    data (cell cap first.toNat) = x ∧ Holds data (first + 1) last xs := by
  have split := h.contents
  rw [length_cons, contents_pop] at split
  obtain ⟨head, tail⟩ := List.cons.inj split
  refine ⟨head, ?_, ?_⟩
  · rw [h.last, length_cons, Nat.add_comm, UInt16.ofNat_add, ← UInt16.add_assoc]
    rfl
  · have next : (first + 1).toNat = (first.toNat + 1) % 2 ^ 16 := by
      rw [UInt16.toNat_add]
      rfl
    rw [next, contents_mod wrap, tail]

end Counters

end Ring
