import Mathlib

/-! A finite map held in a row of slots, in which a key is looked up by the first slot that has it:
filling an empty slot adds a key, and emptying a slot removes one. -/

namespace SlotMap

open Function

variable {κ ν : Type} [DecidableEq κ] {es : List (Option (ν × κ))} {key : κ} {v : ν} {i j : Nat}

def find (key : κ) : List (Option (ν × κ)) → Option (ν × Nat)
  | [] => none
  | none :: es => (find key es).map fun r => (r.1, r.2 + 1)
  | some (v, k) :: es =>
    if k = key then some (v, 0) else (find key es).map fun r => (r.1, r.2 + 1)

def toMap (es : List (Option (ν × κ))) (key : κ) : Option ν := (find key es).map Prod.fst

def Absent (key : κ) (es : List (Option (ν × κ))) (n : Nat) : Prop :=
  ∀ j, j < n → ∀ w, es[j]? ≠ some (some (w, key))

theorem find_eq_some : find key es = some (v, i) ↔ es[i]? = some (some (v, key)) ∧ Absent key es i := by
  induction es generalizing i with
  | nil => simp [find]
  | cons e es ih =>
    -- the first slot has another key, or none
    have skip (other : ∀ w, e ≠ some (w, key)) :
        (find key es).map (fun r => (r.1, r.2 + 1)) = some (v, i) ↔
          (e :: es)[i]? = some (some (v, key)) ∧ Absent key (e :: es) i := by
      cases i with
      | zero => simp [other v]
      | succ i =>
        have shift : (find key es).map (fun r => (r.1, r.2 + 1)) = some (v, i + 1) ↔
            find key es = some (v, i) := by
          rw [Option.map_eq_some_iff]
          exact ⟨fun ⟨⟨w, l⟩, eq, pair⟩ => by cases pair; exact eq, fun eq => ⟨(v, i), eq, rfl⟩⟩
        rw [shift, ih, List.getElem?_cons_succ]
        refine and_congr_right fun _ => ⟨fun none j lt w => ?_, fun none j lt w => ?_⟩
        · cases j with
          | zero => simpa using other w
          | succ j => simpa using none j (by omega) w
        · simpa using none (j + 1) (by omega) w
    rcases e with - | ⟨w, k⟩
    · exact skip nofun
    · rw [find]
      by_cases same : k = key
      · subst same
        rw [if_pos rfl]
        cases i with
        | zero => simp [Absent]
        | succ i =>
          exact ⟨fun eq => (by cases eq), fun both => absurd rfl (both.2 0 (by omega) w)⟩
      · rw [if_neg same]
        exact skip fun w' eq => same (by cases eq; rfl)

theorem find_eq_none : find key es = none ↔ Absent key es es.length := by
  constructor
  · intro missing j lt w eq
    -- the first slot with the key would be found
    have held : ∃ j : Nat, ∃ w, es[j]? = some (some (w, key)) := ⟨j, w, eq⟩
    classical
    obtain ⟨w', eq'⟩ := Nat.find_spec held
    have first : find key es = some (w', Nat.find held) :=
      find_eq_some.mpr ⟨eq', fun l lt w'' eq'' => Nat.find_min held lt ⟨w'', eq''⟩⟩
    rw [missing] at first
    cases first
  · intro absent
    by_contra ne
    obtain ⟨⟨w, l⟩, eq⟩ := Option.ne_none_iff_exists'.mp ne
    obtain ⟨at_l, -⟩ := find_eq_some.mp eq
    exact absent l (List.getElem?_eq_some_iff.mp at_l).1 w at_l

def Distinct (es : List (Option (ν × κ))) : Prop :=
  ∀ (i j : Nat) v w key, es[i]? = some (some (v, key)) → es[j]? = some (some (w, key)) → i = j

theorem Distinct.find (d : Distinct es) (at_i : es[i]? = some (some (v, key))) :
    find key es = some (v, i) :=
  find_eq_some.mpr ⟨at_i, fun j lt w eq => absurd (d i j v w key at_i eq) (by omega)⟩

theorem toMap_eq_none : toMap es key = none ↔ ∀ (j : Nat) w, es[j]? ≠ some (some (w, key)) := by
  rw [toMap, Option.map_eq_none_iff, find_eq_none]
  refine ⟨fun absent j w eq => ?_, fun none j _ w => none j w⟩
  exact absent j (List.getElem?_eq_some_iff.mp eq).1 w eq

theorem toMap_eq_some (d : Distinct es) :
    toMap es key = some v ↔ ∃ i : Nat, es[i]? = some (some (v, key)) := by
  rw [toMap, Option.map_eq_some_iff]
  constructor
  · rintro ⟨⟨w, i⟩, eq, rfl⟩
    exact ⟨i, (find_eq_some.mp eq).1⟩
  · rintro ⟨i, at_i⟩
    exact ⟨(v, i), d.find at_i, rfl⟩

/-- The slots with `e` at index `k`, which is at most the end. -/
def put (es : List (Option (ν × κ))) (k : Nat) (e : Option (ν × κ)) : List (Option (ν × κ)) :=
  if k < es.length then es.set k e else es ++ [e]

omit [DecidableEq κ] in
theorem getElem?_put {e : Option (ν × κ)} (le : i ≤ es.length) (j : Nat) :
    (put es i e)[j]? = if j = i then some e else es[j]? := by
  unfold put
  by_cases lt : i < es.length
  · rw [if_pos lt, List.getElem?_set]
    by_cases same : j = i
    · rw [if_pos same.symm, if_pos same, if_pos (by omega)]
    · rw [if_neg fun eq => same eq.symm, if_neg same]
  · obtain rfl : i = es.length := by omega
    rw [if_neg lt]
    by_cases same : j = es.length
    · rw [if_pos same, same, List.getElem?_concat_length]
    · rw [if_neg same]
      by_cases below : j < es.length
      · rw [List.getElem?_append_left below]
      · rw [List.getElem?_eq_none (by rw [List.length_append, List.length_singleton]; omega),
          List.getElem?_eq_none (by omega)]

section Change

variable (d : Distinct es) (le : i ≤ es.length)

include d le in
theorem distinct_insert (absent : toMap es key = none) : Distinct (put es i (some (v, key))) := by
  rw [toMap_eq_none] at absent
  intro a b w w' key' at_a at_b
  rw [getElem?_put le] at at_a at_b
  by_cases ai : a = i <;> by_cases bi : b = i
  · rw [ai, bi]
  · rw [if_pos ai] at at_a
    rw [if_neg bi] at at_b
    cases at_a
    exact absurd at_b (absent b w')
  · rw [if_neg ai] at at_a
    rw [if_pos bi] at at_b
    cases at_b
    exact absurd at_a (absent a w)
  · rw [if_neg ai] at at_a
    rw [if_neg bi] at at_b
    exact d a b w w' key' at_a at_b

omit [DecidableEq κ] in
include d le in
theorem distinct_erase : Distinct (put es i none) := by
  intro a b w w' key' at_a at_b
  rw [getElem?_put le] at at_a at_b
  split at at_a
  · cases at_a
  · split at at_b
    · cases at_b
    · exact d a b w w' key' at_a at_b

include d le in
theorem toMap_insert (empty : ∀ w k, es[i]? ≠ some (some (w, k))) (absent : toMap es key = none) :
    toMap (put es i (some (v, key))) = update (toMap es) key (some v) := by
  have d' := distinct_insert d le (v := v) absent
  funext key'
  by_cases same : key' = key
  · subst same
    rw [update_self, toMap_eq_some d']
    exact ⟨i, by rw [getElem?_put le, if_pos rfl]⟩
  · rw [update_of_ne same]
    refine Option.ext fun w => ?_
    rw [toMap_eq_some d', toMap_eq_some d]
    refine exists_congr fun j => ?_
    rw [getElem?_put le]
    by_cases ji : j = i
    · subst ji
      rw [if_pos rfl]
      refine ⟨fun eq => absurd ?_ same, fun eq => absurd eq (empty w key')⟩
      cases eq
      rfl
    · rw [if_neg ji]

include d le in
theorem toMap_erase (at_i : es[i]? = some (some (v, key))) :
    toMap (put es i none) = update (toMap es) key none := by
  have d' := distinct_erase d le
  funext key'
  by_cases same : key' = key
  · subst same
    rw [update_self, toMap_eq_none]
    intro j w eq
    rw [getElem?_put le] at eq
    split at eq
    · cases eq
    · exact ‹¬j = i› (d j i w v key' eq at_i)
  · rw [update_of_ne same]
    refine Option.ext fun w => ?_
    rw [toMap_eq_some d', toMap_eq_some d]
    refine exists_congr fun j => ?_
    rw [getElem?_put le]
    by_cases ji : j = i
    · subst ji
      rw [if_pos rfl, at_i]
      refine ⟨fun eq => (by cases eq), fun eq => absurd ?_ same⟩
      cases eq
      rfl
    · rw [if_neg ji]

end Change

end SlotMap
