import Mathlib

/-! The matcher of `user/grep.c` and the language of a pattern. A C string is its bytes before the
NUL. -/

namespace Xv6.Grep

open scoped Computability

abbrev star : UInt8 := 42
abbrev dollar : UInt8 := 36
abbrev dot : UInt8 := 46
abbrev caret : UInt8 := 94

def fits (c t : UInt8) : Bool := c = dot || c = t

/-- `matchstar(c, re, text)`, where `here` is `matchhere` of `re`. -/
def matchstar (here : List UInt8 → Bool) (c : UInt8) : List UInt8 → Bool
  | [] => here []
  | t :: text => here (t :: text) || fits c t && matchstar here c text

/-- `matchhere` when `re[1]` is no `*`, for one character of the text. -/
def matchone (here : List UInt8 → Bool) (c : UInt8) : List UInt8 → Bool
  | [] => false
  | t :: text => fits c t && here text

def matchhere : List UInt8 → List UInt8 → Bool
  | [], _ => true
  | [c], text => if c = dollar then text.isEmpty else matchone (matchhere []) c text
  | c :: d :: re, text =>
    if d = star then matchstar (matchhere re) c text else matchone (matchhere (d :: re)) c text

def matchLoop (re : List UInt8) : List UInt8 → Bool
  | [] => matchhere re []
  | t :: text => matchhere re (t :: text) || matchLoop re text

def matchRe (re text : List UInt8) : Bool :=
  if re.head? = some caret then matchhere re.tail text else matchLoop re text

/-- An item of a pattern: a character, or a character with a `*` after it. -/
inductive Item
  | one (c : UInt8)
  | many (c : UInt8)
  deriving DecidableEq, Repr

/-- The items of a pattern, and whether it ends with a `$`. -/
def items : List UInt8 → List Item × Bool
  | [] => ([], false)
  | [c] => if c = dollar then ([], true) else ([.one c], false)
  | c :: d :: re =>
    if d = star then ((items re).1.cons (.many c), (items re).2)
    else ((items (d :: re)).1.cons (.one c), (items (d :: re)).2)

/-- A pattern: whether it begins with `^`, its items, and whether it ends with `$`. -/
def pattern (re : List UInt8) : Bool × List Item × Bool :=
  if re.head? = some caret then (true, items re.tail) else (false, items re)

/-- The words of one character that `c` stands for. -/
def chars (c : UInt8) : Language UInt8 := {w | ∃ t, w = [t] ∧ (c = dot ∨ c = t)}

def Item.language : Item → Language UInt8
  | .one c => chars c
  | .many c => (chars c)∗

def language (is : List Item) : Language UInt8 := (is.map Item.language).prod

/-- The text starts with a word of the language, and is that word if it has to end there. -/
def Starts (p : List Item × Bool) (text : List UInt8) : Prop :=
  ∃ w post, text = w ++ post ∧ w ∈ language p.1 ∧ (p.2 = true → post = [])

variable {c d : UInt8} {re text w : List UInt8} {here : List UInt8 → Bool}
  {is : List Item} {ends : Bool}

theorem fits_iff {t : UInt8} : fits c t = true ↔ c = dot ∨ c = t := by
  simp [fits]

/-- A word of the `*` of a character has characters that it stands for, and no others. -/
theorem mem_chars_kstar : w ∈ (chars c)∗ ↔ ∀ t ∈ w, fits c t := by
  rw [Language.mem_kstar]
  constructor
  · rintro ⟨L, rfl, each⟩ t ht
    obtain ⟨y, hy, hty⟩ := List.mem_flatten.mp ht
    obtain ⟨t', rfl, ht'⟩ := each y hy
    rwa [List.mem_singleton.mp hty, fits_iff]
  · intro all
    refine ⟨w.map ([·]), (List.flatMap_singleton' w).symm, fun y hy => ?_⟩
    obtain ⟨t, ht, rfl⟩ := List.mem_map.mp hy
    exact ⟨t, rfl, fits_iff.mp (all t ht)⟩

theorem matchstar_iff :
    matchstar here c text = true ↔ ∃ u v, text = u ++ v ∧ (∀ t ∈ u, fits c t) ∧ here v := by
  induction text with
  | nil =>
    rw [matchstar]
    constructor
    · exact fun h => ⟨[], [], rfl, nofun, h⟩
    · rintro ⟨u, v, e, -, h⟩
      obtain ⟨rfl, rfl⟩ := List.append_eq_nil_iff.mp e.symm
      exact h
  | cons t text ih =>
    rw [matchstar, Bool.or_eq_true, Bool.and_eq_true, ih]
    constructor
    · rintro (h | ⟨ht, u, v, rfl, all, h⟩)
      · exact ⟨[], t :: text, rfl, nofun, h⟩
      · exact ⟨t :: u, v, rfl, List.forall_mem_cons.mpr ⟨ht, all⟩, h⟩
    · rintro ⟨u, v, e, all, h⟩
      cases u with
      | nil =>
        cases e
        exact .inl h
      | cons t' u =>
        cases e
        obtain ⟨ht, all⟩ := List.forall_mem_cons.mp all
        exact .inr ⟨ht, u, v, rfl, all, h⟩

theorem matchone_iff (rest : ∀ text, here text = true ↔ Starts (is, ends) text) :
    matchone here c text = true ↔ Starts (.one c :: is, ends) text := by
  constructor
  · cases text with
    | nil => nofun
    | cons t text =>
      intro h
      obtain ⟨ht, h⟩ := (Bool.and_eq_true ..).mp h
      obtain ⟨w, post, rfl, mem, stop⟩ := (rest text).mp h
      exact ⟨t :: w, post, rfl, ⟨[t], ⟨t, rfl, fits_iff.mp ht⟩, w, mem, rfl⟩, stop⟩
  · rintro ⟨-, post, rfl, ⟨-, ⟨t, rfl, ht⟩, w, mem, rfl⟩, stop⟩
    exact (Bool.and_eq_true ..).mpr ⟨fits_iff.mpr ht, (rest _).mpr ⟨w, post, rfl, mem, stop⟩⟩

theorem matchmany_iff (rest : ∀ text, here text = true ↔ Starts (is, ends) text) :
    matchstar here c text = true ↔ Starts (.many c :: is, ends) text := by
  rw [matchstar_iff]
  constructor
  · rintro ⟨u, v, rfl, all, h⟩
    obtain ⟨w, post, rfl, mem, stop⟩ := (rest v).mp h
    exact ⟨u ++ w, post, (List.append_assoc ..).symm,
      ⟨u, mem_chars_kstar.mpr all, w, mem, rfl⟩, stop⟩
  · rintro ⟨-, post, rfl, ⟨u, hu, w, mem, rfl⟩, stop⟩
    exact ⟨u, w ++ post, List.append_assoc .., mem_chars_kstar.mp hu,
      (rest _).mpr ⟨w, post, rfl, mem, stop⟩⟩

theorem starts_nil : Starts ([], ends) text ↔ ends = true → text = [] := by
  constructor
  · rintro ⟨w, post, rfl, rfl, stop⟩
    exact stop
  · exact fun stop => ⟨[], text, rfl, rfl, stop⟩

theorem matchhere_iff : matchhere re text = true ↔ Starts (items re) text := by
  -- the recursion of `matchhere` is on the pattern, two characters at a time at a `*`
  induction re using items.induct generalizing text with
  | case1 => simp [matchhere, items, starts_nil]
  | case2 => simp [matchhere, items, starts_nil]
  | case3 c ne =>
    rw [matchhere, items, if_neg ne, if_neg ne]
    exact matchone_iff fun text => by simp [matchhere, starts_nil]
  | case4 c re ih =>
    rw [matchhere, items, if_pos rfl, if_pos rfl]
    exact matchmany_iff fun _ => ih
  | case5 c d re ne ih =>
    rw [matchhere, items, if_neg ne, if_neg ne]
    exact matchone_iff fun _ => ih

theorem matchLoop_iff :
    matchLoop re text = true ↔ ∃ pre rest, text = pre ++ rest ∧ Starts (items re) rest := by
  induction text with
  | nil =>
    rw [matchLoop, matchhere_iff]
    constructor
    · exact fun h => ⟨[], [], rfl, h⟩
    · rintro ⟨pre, rest, e, h⟩
      obtain ⟨rfl, rfl⟩ := List.append_eq_nil_iff.mp e.symm
      exact h
  | cons t text ih =>
    rw [matchLoop, Bool.or_eq_true, matchhere_iff, ih]
    constructor
    · rintro (h | ⟨pre, rest, rfl, h⟩)
      · exact ⟨[], t :: text, rfl, h⟩
      · exact ⟨t :: pre, rest, rfl, h⟩
    · rintro ⟨pre, rest, e, h⟩
      cases pre with
      | nil =>
        cases e
        exact .inl h
      | cons t' pre =>
        cases e
        exact .inr ⟨pre, rest, rfl, h⟩

/-- `match` finds a word of the language of the pattern in the text: at its start if the pattern
begins with `^`, and at its end if it ends with `$`. -/
theorem match_iff_language (re text : List UInt8) :
    matchRe re text = true ↔ ∃ pre w post, text = pre ++ (w ++ post) ∧
      w ∈ language (pattern re).2.1 ∧ ((pattern re).1 = true → pre = []) ∧
      ((pattern re).2.2 = true → post = []) := by
  unfold matchRe pattern
  split
  · rw [matchhere_iff]
    constructor
    · rintro ⟨w, post, rfl, mem, stop⟩
      exact ⟨[], w, post, rfl, mem, fun _ => rfl, stop⟩
    · rintro ⟨pre, w, post, rfl, mem, start, stop⟩
      rw [start rfl]
      exact ⟨w, post, rfl, mem, stop⟩
  · rw [matchLoop_iff]
    constructor
    · rintro ⟨pre, -, rfl, w, post, rfl, mem, stop⟩
      exact ⟨pre, w, post, rfl, mem, nofun, stop⟩
    · rintro ⟨pre, w, post, rfl, mem, -, stop⟩
      exact ⟨pre, w ++ post, rfl, w, post, rfl, mem, stop⟩

/-- `^a*$` and `$*`: the `*` comes before the `$`. -/
example : pattern [94, 97, 42, 36] = (true, [.many 97], true) ∧
    pattern [36, 42] = (false, [.many 36], false) := by decide

end Xv6.Grep
