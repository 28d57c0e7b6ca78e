import Mathlib

/-! `printint` of the kernel and of the user library. Both fill `buf[16]` from the last digit on and
print it backwards; a store outside of it stops the model. -/

namespace Xv6.Print

open List

/-- `overflow` is a store outside of `buf`, and `missing` a `va_arg` with no argument left. -/
inductive Stop
  | overflow
  | missing
  deriving DecidableEq, Repr

abbrev bufSize : Nat := 16

/-- The `do`-`while` loop, with `room` cells of `buf` left; what it stores. -/
def digitLoop (digits : List Char) (base : Nat) : Nat → Nat → Except Stop (List Char)
  | 0, _ => .error .overflow
  | room + 1, x => do
    let rest ← if x / base ≠ 0 then digitLoop digits base room (x / base) else pure []
    return digits.getD (x % base) ' ' :: rest

/-- Both functions from the loop on: the digits of `x`, and `-` if `neg`. -/
def emit (digits : List Char) (base : Nat) (neg : Bool) (x : Nat) : Except Stop (List Char) := do
  let buf ← digitLoop digits base bufSize x
  if neg then
    if buf.length < bufSize then return '-' :: buf.reverse else throw .overflow
  else return buf.reverse

def Kernel.digits : List Char := "0123456789abcdef".toList

/-- `printint` of `kernel/printf.c`. -/
def Kernel.printint (xx : Int64) (base : Nat) (sign : Bool) : Except Stop (List Char) :=
  let sign := sign && xx < 0
  let x : UInt64 := if sign then (-xx).toUInt64 else xx.toUInt64
  emit Kernel.digits base sign x.toNat

def User.digits : List Char := "0123456789ABCDEF".toList

/-- `printint` of `user/printf.c`. -/
def User.printint (xx : Int32) (base : Nat) (sgn : Bool) : Except Stop (List Char) :=
  let neg := sgn && xx < 0
  let x : UInt32 := if neg then (-xx).toUInt32 else xx.toUInt32
  emit User.digits base neg x.toNat

/-- The digits of a number, the last one first; zero has one. -/
def canonical (base x : Nat) : List Nat := if x = 0 then [0] else Nat.digits base x

/-- The numeral of `v`: no zeros in front, and `-` if `v` is negative. -/
def numeral (digits : List Char) (base : Nat) (v : Int) : List Char :=
  (if v < 0 then ['-'] else []) ++ ((canonical base v.natAbs).map (digits.getD · ' ')).reverse

/-- What `room` cells can hold. -/
def fit (room : Nat) (out : List Char) : Except Stop (List Char) :=
  if out.length ≤ room then .ok out else .error .overflow

variable {digits : List Char} {base : Nat}

theorem canonical_eq (two : 1 < base) (x : Nat) : canonical base x =
    x % base :: if x / base = 0 then [] else canonical base (x / base) := by
  unfold canonical
  split
  next zero =>
    subst zero
    simp
  next pos =>
    rw [Nat.digits_def' two (pos_of_ne_zero pos)]
    split
    next last => rw [last, Nat.digits_zero]
    next => rfl

theorem digitLoop_eq (two : 1 < base) (room x : Nat) :
    digitLoop digits base room x = fit room ((canonical base x).map (digits.getD · ' ')) := by
  induction room generalizing x with
  | zero =>
    rw [canonical_eq two]
    rfl
  | succ room ih =>
    rw [digitLoop, canonical_eq two x]
    split
    next more =>
      rw [ih]
      unfold fit
      simp only [length_map, map_cons, length_cons, Nat.add_le_add_iff_right]
      split <;> rfl
    next last =>
      rw [not_not.mp last]
      rfl

theorem emit_eq (two : 1 < base) (v : Int) :
    emit digits base (v < 0) v.natAbs = fit bufSize (numeral digits base v) := by
  unfold emit numeral
  rw [digitLoop_eq two]
  generalize (canonical base v.natAbs).map (digits.getD · ' ') = ds
  unfold fit
  simp only [decide_eq_true_eq, length_append, length_reverse]
  by_cases neg : v < 0
  · simp only [neg, if_true, length_singleton]
    by_cases room : ds.length ≤ bufSize
    · rw [if_pos room]
      show (if ds.length < bufSize then Except.ok ('-' :: ds.reverse) else .error Stop.overflow) = _
      exact if_congr (by omega) rfl rfl
    · rw [if_neg room, if_neg (by omega)]
      rfl
  · simp only [neg, if_false, length_nil, zero_add]
    split <;> rfl

/-- The number that the kernel's `printint` is given. -/
def Kernel.value (xx : Int64) (sign : Bool) : Int := if sign then xx.toInt else xx.toUInt64.toNat

/-- The number that the user's `printint` is given. -/
def User.value (xx : Int32) (sgn : Bool) : Int := if sgn then xx.toInt else xx.toUInt32.toNat

theorem toNat_abs {w : Nat} (v : BitVec w) :
    (if v.toInt < 0 then -v else v).toNat = v.toInt.natAbs := by
  have lt := v.isLt
  have toInt := v.toInt_eq_toNat_cond
  split
  next neg =>
    rw [BitVec.toNat_neg]
    split at toInt
    · omega
    · rw [Nat.mod_eq_of_lt (by omega)]
      omega
  next => split at toInt <;> omega

theorem Kernel.printint_eq (two : 1 < base) (xx : Int64) (sign : Bool) :
    Kernel.printint xx base sign =
      fit bufSize (numeral Kernel.digits base (Kernel.value xx sign)) := by
  rw [← emit_eq two]
  cases sign with
  | false => rfl
  | true =>
    have neg : (xx < 0) = (xx.toInt < 0) := propext Int64.lt_iff_toInt_lt
    have abs := toNat_abs xx.toBitVec
    rw [apply_ite BitVec.toNat] at abs
    unfold Kernel.printint
    simp only [Bool.true_and, neg, decide_eq_true_eq, apply_ite UInt64.toNat]
    exact congrArg (emit _ _ _) abs

theorem User.printint_eq (two : 1 < base) (xx : Int32) (sgn : Bool) :
    User.printint xx base sgn =
      fit bufSize (numeral User.digits base (User.value xx sgn)) := by
  rw [← emit_eq two]
  cases sgn with
  | false => rfl
  | true =>
    have neg : (xx < 0) = (xx.toInt < 0) := propext Int32.lt_iff_toInt_lt
    have abs := toNat_abs xx.toBitVec
    rw [apply_ite BitVec.toNat] at abs
    unfold User.printint
    simp only [Bool.true_and, neg, decide_eq_true_eq, apply_ite UInt32.toNat]
    exact congrArg (emit _ _ _) abs

theorem canonical_length_le (two : 1 < base) (x k : Nat) :
    (canonical base x).length ≤ k + 1 ↔ x < base ^ (k + 1) := by
  unfold canonical
  split
  next zero => exact iff_of_true (Nat.le_add_left 1 k) (zero ▸ Nat.pow_pos (by omega))
  next => exact Nat.digits_length_le_iff two x

/-- The numbers whose numerals fit into `buf`. -/
theorem numeral_length_le (two : 1 < base) (v : Int) :
    (numeral digits base v).length ≤ bufSize ↔ -(base : Int) ^ 15 < v ∧ v < (base : Int) ^ 16 := by
  have fifteen : _ ↔ v.natAbs < base ^ 15 := canonical_length_le two v.natAbs 14
  have sixteen : _ ↔ v.natAbs < base ^ 16 := canonical_length_le two v.natAbs 15
  have pos : 0 < base ^ 15 := Nat.pow_pos (by omega)
  have pos' : 0 < base ^ 16 := Nat.pow_pos (by omega)
  rw [← Nat.cast_pow, ← Nat.cast_pow]
  generalize base ^ 15 = low at *
  generalize base ^ 16 = high at *
  unfold numeral
  rw [length_append, length_reverse, length_map]
  split <;> simp only [length_singleton, length_nil, bufSize] <;> omega

/-- `printint` prints the numeral, and stays inside `buf`, if and only if it is above `-base ^ 15`
and below `base ^ 16`. -/
theorem printint_iff (xx : Int64) (base : Nat) (bases : base = 10 ∨ base = 16) (sign : Bool) :
    Kernel.printint xx base sign = .ok (numeral Kernel.digits base (Kernel.value xx sign)) ↔
      -(base : Int) ^ 15 < Kernel.value xx sign ∧ Kernel.value xx sign < (base : Int) ^ 16 := by
  have two : 1 < base := by omega
  rw [Kernel.printint_eq two, ← @numeral_length_le Kernel.digits _ two, fit]
  split
  next fits => exact iff_of_true rfl fits
  next long => exact iff_of_false nofun long

theorem printint_iff_negative :
    Kernel.printint (-123) 10 true = .ok (numeral Kernel.digits 10 (-123)) :=
  (printint_iff (-123) 10 (.inl rfl) true).mpr (by decide)

/-- The most negative number has 20 characters. -/
theorem printint_overflow :
    Kernel.printint Int64.minValue 10 true = .error .overflow ∧
      numeral Kernel.digits 10 Int64.minValue.toInt = "-9223372036854775808".toList := by
  decide +kernel

end Xv6.Print
