import Xv6.Print.Numerals

/-! `printf` of the kernel and `vprintf` of the user library.  A format string is the list of its
characters before the NUL, and a `va_list` the list of the 64-bit slots of the arguments. -/

namespace Xv6.Print

open List

abbrev nul : Char := '\x00'

/-- What the two functions call: `printint`, which the compiler gives a 64-bit number, and the
digits that `printptr` uses.  `str` has the string at an address. -/
structure Printer where
  printint : Int64 → Nat → Bool → Except Stop (List Char)
  digits : List Char
  str : UInt64 → List Char

def Kernel.printer (str : UInt64 → List Char) : Printer := ⟨Kernel.printint, Kernel.digits, str⟩

def User.printer (str : UInt64 → List Char) : Printer :=
  ⟨fun xx => User.printint xx.toInt32, User.digits, str⟩

def printptrLoop (digits : List Char) : Nat → UInt64 → List Char
  | 0, _ => []
  | i + 1, x => digits.getD (x >>> 60).toNat ' ' :: printptrLoop digits i (x <<< 4)

namespace Printer

variable (io : Printer)

def printptr (x : UInt64) : List Char := '0' :: 'x' :: printptrLoop io.digits 16 x

def string (s : UInt64) : List Char := if s = 0 then "(null)".toList else io.str s

/-- `printint(va_arg(ap, int), base, sign)`. -/
def int (base : Nat) (sign : Bool) (a : UInt64) : Except Stop (List Char) :=
  io.printint a.toUInt32.toInt32.toInt64 base sign

/-- `printint(va_arg(ap, uint64), base, sign)`. -/
def uint64 (base : Nat) (sign : Bool) (a : UInt64) : Except Stop (List Char) :=
  io.printint a.toInt64 base sign

end Printer

/-- The next argument, printed with `show_`, and the characters after `c0` to go past. -/
def withArg (ap : List UInt64) (skip : Nat) (show_ : UInt64 → Except Stop (List Char)) :
    Except Stop (List Char × List UInt64 × Nat) :=
  match ap with
  | [] => .error .missing
  | a :: ap => do return (← show_ a, ap, skip)

/-- The conversion that starts with `c0`, before the rest of the format. -/
def convert (io : Printer) (c0 : Char) (rest : List Char) (ap : List UInt64) :
    Except Stop (List Char × List UInt64 × Nat) :=
  let c1 := rest.headD nul
  let c2 := if c1 ≠ nul then rest.tail.headD nul else nul
  if c0 = 'd' then withArg ap 0 (io.int 10 true)
  else if c0 = 'l' ∧ c1 = 'd' then withArg ap 1 (io.uint64 10 true)
  else if c0 = 'l' ∧ c1 = 'l' ∧ c2 = 'd' then withArg ap 2 (io.uint64 10 true)
  else if c0 = 'u' then withArg ap 0 (io.int 10 false)
  else if c0 = 'l' ∧ c1 = 'u' then withArg ap 1 (io.uint64 10 false)
  else if c0 = 'l' ∧ c1 = 'l' ∧ c2 = 'u' then withArg ap 2 (io.uint64 10 false)
  else if c0 = 'x' then withArg ap 0 (io.int 16 false)
  else if c0 = 'l' ∧ c1 = 'x' then withArg ap 1 (io.uint64 16 false)
  else if c0 = 'l' ∧ c1 = 'l' ∧ c2 = 'x' then withArg ap 2 (io.uint64 16 false)
  else if c0 = 'p' then withArg ap 0 fun a => .ok (io.printptr a)
  else if c0 = 's' then withArg ap 0 fun a => .ok (io.string a)
  else if c0 = '%' then .ok (['%'], ap, 0)
  else .ok (['%', c0], ap, 0)

/-- The loop of `printf`, with `skip` characters to go past. -/
def Kernel.printfLoop (io : Printer) : List Char → Nat → List UInt64 → Except Stop (List Char)
  | [], _, _ => .ok []
  | _ :: fmt, skip + 1, ap => Kernel.printfLoop io fmt skip ap
  | cx :: fmt, 0, ap =>
    if cx ≠ '%' then return cx :: (← Kernel.printfLoop io fmt 0 ap)
    else
      match fmt with
      | [] => .ok []
      | c0 :: rest => do
        let (out, ap, skip) ← convert io c0 rest ap
        return out ++ (← Kernel.printfLoop io (c0 :: rest) (skip + 1) ap)

def Kernel.printf (str : UInt64 → List Char) (fmt : List Char) (ap : List UInt64) :
    Except Stop (List Char) :=
  Kernel.printfLoop (Kernel.printer str) fmt 0 ap

/-- The loop of `vprintf`; `percent` is its `state`. -/
def User.vprintfLoop (io : Printer) :
    List Char → Bool → Nat → List UInt64 → Except Stop (List Char)
  | [], _, _, _ => .ok []
  | _ :: fmt, percent, skip + 1, ap => User.vprintfLoop io fmt percent skip ap
  | c0 :: fmt, false, 0, ap =>
    if c0 = '%' then User.vprintfLoop io fmt true 0 ap
    else return c0 :: (← User.vprintfLoop io fmt false 0 ap)
  | c0 :: fmt, true, 0, ap => do
    let (out, ap, skip) ← convert io c0 fmt ap
    return out ++ (← User.vprintfLoop io fmt false skip ap)

def User.vprintf (str : UInt64 → List Char) (fmt : List Char) (ap : List UInt64) :
    Except Stop (List Char) :=
  User.vprintfLoop (User.printer str) fmt false 0 ap

/-- A conversion to a numeral: its letters, and how the argument is read. -/
structure Conv where
  letters : List Char
  wide : Bool
  sign : Bool
  hex : Bool

def Conv.base (k : Conv) : Nat := if k.hex then 16 else 10

def conversions : List Conv :=
  [⟨['d'], false, true, false⟩, ⟨['l', 'd'], true, true, false⟩,
    ⟨['l', 'l', 'd'], true, true, false⟩, ⟨['u'], false, false, false⟩,
    ⟨['l', 'u'], true, false, false⟩,
    ⟨['l', 'l', 'u'], true, false, false⟩, ⟨['x'], false, false, true⟩,
    ⟨['l', 'x'], true, false, true⟩, ⟨['l', 'l', 'x'], true, false, true⟩]

/-- The argument in the slot `a`. -/
def Conv.value (k : Conv) (a : UInt64) : Int :=
  match k.wide, k.sign with
  | false, true => a.toUInt32.toInt32.toInt
  | false, false => a.toUInt32.toNat
  | true, true => a.toInt64.toInt
  | true, false => a.toNat

/-- What stands in a format: a character to copy, or a place for an argument. -/
inductive Piece
  | char (c : Char)
  | number (k : Conv)
  | ptr
  | str

/-- The pieces of a format: after a `%` one of `conversions`, or what one character says. -/
def pieces : List Char → List Piece
  | [] | ['%'] => []
  | '%' :: c :: rest =>
    match conversions.find? (·.letters.isPrefixOf (c :: rest)) with
    | some k => .number k :: pieces (rest.drop (k.letters.length - 1))
    | none =>
      if c = 'p' then .ptr :: pieces rest
      else if c = 's' then .str :: pieces rest
      else if c = '%' then .char '%' :: pieces rest
      else .char '%' :: .char c :: pieces rest
  | c :: rest => .char c :: pieces rest
termination_by fmt => fmt.length
decreasing_by all_goals simp; try omega

/-- The text of the pieces with their arguments, where `text` is that of a number. -/
def shown (io : Printer) (text : Conv → UInt64 → Except Stop (List Char)) :
    List Piece → List UInt64 → Except Stop (List Char)
  | [], _ => .ok []
  | .char c :: ps, args => return c :: (← shown io text ps args)
  | .number k :: ps, a :: args => return (← text k a) ++ (← shown io text ps args)
  | .ptr :: ps, a :: args => return io.printptr a ++ (← shown io text ps args)
  | .str :: ps, a :: args => return io.string a ++ (← shown io text ps args)
  | _, _ => .error .missing

/-- The numbers among the arguments. -/
def numbers : List Piece → List UInt64 → List (Conv × UInt64)
  | .char _ :: ps, args => numbers ps args
  | .number k :: ps, a :: args => (k, a) :: numbers ps args
  | .ptr :: ps, _ :: args | .str :: ps, _ :: args => numbers ps args
  | _, _ => []

variable {digits : List Char} {base : Nat} {io : Printer} {k : Conv} {a : UInt64}
  {text text' : Conv → UInt64 → Except Stop (List Char)}

/-- What a conversion does with its argument. -/
def Printer.arg (io : Printer) (k : Conv) (a : UInt64) : Except Stop (List Char) :=
  if k.wide then io.uint64 k.base k.sign a else io.int k.base k.sign a

/-- The number that `printint` gets of the slot `a`. -/
def Conv.long (k : Conv) (a : UInt64) : Int64 :=
  if k.wide then a.toInt64 else a.toUInt32.toInt32.toInt64

theorem arg_eq (io : Printer) (k : Conv) (a : UInt64) :
    io.arg k a = io.printint (k.long a) k.base k.sign := by
  unfold Printer.arg Conv.long
  split <;> rfl

/-- What a conversion is to print. -/
def Printer.value (io : Printer) (k : Conv) (a : UInt64) : Except Stop (List Char) :=
  .ok (numeral io.digits k.base (k.value a))

theorem convert_number (io : Printer) (fmt : List Char) (args : List UInt64)
    (mem : k ∈ conversions) : ∃ c tail, k.letters = c :: tail ∧
    convert io c (tail ++ fmt) args = withArg args tail.length (io.arg k) := by
  simp only [conversions, mem_cons, not_mem_nil, or_false] at mem
  rcases mem with rfl | rfl | rfl | rfl | rfl | rfl | rfl | rfl | rfl <;> exact ⟨_, _, rfl, rfl⟩

theorem convert_other (none : conversions.find? (·.letters.isPrefixOf (c :: rest)) = none) :
    convert io c rest args =
      if c = 'p' then withArg args 0 fun a => .ok (io.printptr a)
      else if c = 's' then withArg args 0 fun a => .ok (io.string a)
      else if c = '%' then .ok (['%'], args, 0)
      else .ok (['%', c], args, 0) := by
  simp only [conversions, List.find?_eq_none, forall_mem_cons] at none
  rcases rest with _ | ⟨x, _ | ⟨y, rest⟩⟩ <;> simp [convert] at * <;> grind

/-- What the two loops have in common. -/
structure Scans (io : Printer) (loop : List Char → Nat → List UInt64 → Except Stop (List Char)) :
    Prop where
  nil : ∀ ap, loop [] 0 ap = .ok []
  last : ∀ ap, loop ['%'] 0 ap = .ok []
  copy : ∀ c fmt ap, c ≠ '%' → loop (c :: fmt) 0 ap = do return c :: (← loop fmt 0 ap)
  skip : ∀ c fmt n ap, loop (c :: fmt) (n + 1) ap = loop fmt n ap
  conv : ∀ c rest ap, loop ('%' :: c :: rest) 0 ap = do
    let (out, ap, skip) ← convert io c rest ap
    return out ++ (← loop rest skip ap)

theorem Kernel.printfLoop_scans : Scans io (Kernel.printfLoop io) where
  nil _ := rfl
  last _ := rfl
  copy _ fmt _ other := by cases fmt <;> exact if_pos other
  skip _ _ _ _ := rfl
  conv _ _ _ := rfl

theorem User.vprintfLoop_scans : Scans io fun fmt => User.vprintfLoop io fmt false where
  nil _ := rfl
  last _ := rfl
  copy _ _ _ other := if_neg other
  skip _ _ _ _ := rfl
  conv _ _ _ := rfl

section Scans

variable {loop : List Char → Nat → List UInt64 → Except Stop (List Char)} (scans : Scans io loop)

include scans

theorem Scans.drop (xs fmt : List Char) (args : List UInt64) :
    loop (xs ++ fmt) xs.length args = loop fmt 0 args := by
  induction xs with
  | nil => rfl
  | cons x xs ih => exact (scans.skip ..).trans ih

theorem Scans.eq_shown (fmt : List Char) (args : List UInt64) :
    loop fmt 0 args = shown io io.arg (pieces fmt) args := by
  fun_induction pieces fmt generalizing args with
  | case1 => exact scans.nil _
  | case2 => exact scans.last _
  | case3 c rest k found ih =>
    have starts : k.letters.isPrefixOf (c :: rest) = true :=
      List.find?_some (p := fun k : Conv => k.letters.isPrefixOf (c :: rest)) found
    obtain ⟨rest', eq⟩ := isPrefixOf_iff_prefix.mp starts
    obtain ⟨c', tail, letters, conv⟩ :=
      convert_number io rest' args (mem_of_find?_eq_some found)
    rw [letters, cons_append, List.cons.injEq] at eq
    obtain ⟨rfl, rfl⟩ := eq
    rw [letters, length_cons, Nat.add_sub_cancel, drop_left] at ih ⊢
    rw [scans.conv, conv]
    cases args with
    | nil => rfl
    | cons a args =>
      show ((io.arg k a >>= fun t => pure (t, args, tail.length)) >>= _) = _
      rw [shown, ← ih, ← scans.drop tail]
      cases io.arg k a <;> rfl
  | case4 rest none ih | case5 rest none _ ih =>
    rw [scans.conv, convert_other none]
    cases args with
    | nil => rfl
    | cons a args =>
      rw [shown, ← ih]
      rfl
  | case6 rest none _ _ ih =>
    rw [scans.conv, convert_other none, shown, ← ih]
    rfl
  | case7 c rest none p s percent ih =>
    rw [scans.conv, convert_other none, if_neg p, if_neg s, if_neg percent, shown, shown, ← ih]
    show (do return _ ++ (← loop rest 0 args)) = _
    cases loop rest 0 args <;> rfl
  | case8 c rest last more ih =>
    have plain : c ≠ '%' := by
      intro eq
      cases rest with
      | nil => exact last eq rfl
      | cons c' rest => exact more c' rest eq rfl
    rw [scans.copy c rest args plain, shown, ih]

end Scans

theorem shown_congr (same : ∀ u ∈ numbers ps args, text u.1 u.2 = text' u.1 u.2) :
    shown io text ps args = shown io text' ps args := by
  induction ps generalizing args with
  | nil => rfl
  | cons p ps ih =>
    cases p with
    | char c => rw [shown, shown, ih same]
    | number k =>
      cases args with
      | nil => rfl
      | cons a args =>
        obtain ⟨here, same⟩ := forall_mem_cons.mp same
        rw [shown, shown, here, ih same]
    | ptr | str =>
      cases args with
      | nil => rfl
      | cons a args => rw [shown, shown, ih same]

theorem exists_shown (io : Printer) (enough : ps.length ≤ args.length) :
    ∃ out, shown io io.value ps args = .ok out := by
  induction ps generalizing args with
  | nil => exact ⟨[], rfl⟩
  | cons p ps ih =>
    cases args with
    | nil => cases enough
    | cons a args =>
      obtain ⟨out, ok⟩ := ih (Nat.le_of_succ_le_succ enough)
      obtain ⟨out', ok'⟩ := @ih (a :: args) (Nat.le_of_succ_le enough)
      cases p <;> simp only [shown, Printer.value, ok, ok'] <;> exact ⟨_, rfl⟩

/-- The kernel shows a number whose numeral fits into `buf`, and of the unsigned 32-bit numbers only
those that are not negative as an `int`. -/
def Kernel.Fits (k : Conv) (a : UInt64) : Prop :=
  (-(k.base : Int) ^ 15 < k.value a ∧ k.value a < (k.base : Int) ^ 16) ∧
    (k.wide = false → k.sign = false → a.toUInt32.toNat < 2 ^ 31)

/-- The user library shows a 64-bit number only if it has 32 bits. -/
def User.Fits (k : Conv) (a : UInt64) : Prop :=
  k.wide = true → if k.sign then -2 ^ 31 ≤ k.value a ∧ k.value a < 2 ^ 31 else k.value a < 2 ^ 32

theorem Conv.bases (k : Conv) : k.base = 10 ∨ k.base = 16 := by
  unfold Conv.base
  split <;> decide

/-- The digits of a numeral can be read back. -/
structure Readable (digits : List Char) : Prop where
  back : ∀ d < 16, digits.idxOf (digits.getD d ' ') = d
  sign : ∀ d < 16, digits.getD d ' ' ≠ '-'

theorem Kernel.readable : Readable Kernel.digits := ⟨by decide, by decide⟩

theorem User.readable : Readable User.digits := ⟨by decide, by decide⟩

theorem numeral_inj (read : Readable digits) (bases : base = 10 ∨ base = 16) {v w : Int}
    (eq : numeral digits base v = numeral digits base w) : v = w := by
  have lt (x : Nat) : ∀ d ∈ canonical base x, d < 16 := by
    intro d mem
    unfold canonical at mem
    split at mem
    · rw [mem_singleton.mp mem]
      decide
    · have := Nat.digits_lt_base (by omega) mem
      omega
  have back (x : Nat) :
      Nat.ofDigits base (((canonical base x).map (digits.getD · ' ')).map digits.idxOf) = x := by
    have same : (canonical base x).map (digits.idxOf ∘ (digits.getD · ' ')) = canonical base x :=
      (map_congr_left fun d mem => read.back d (lt x d mem)).trans (map_id _)
    rw [map_map, same]
    unfold canonical
    split
    · rename_i zero
      rw [zero]
      rfl
    · exact Nat.ofDigits_digits base x
  have digit (x : Nat) : '-' ∉ ((canonical base x).map (digits.getD · ' ')).reverse := by
    rw [mem_reverse, mem_map]
    rintro ⟨d, mem, eq⟩
    exact read.sign d (lt x d mem) eq
  have sign : v < 0 ↔ w < 0 := by
    have neg (x : Int) : '-' ∈ numeral digits base x ↔ x < 0 := by
      rw [numeral, mem_append, or_iff_left (digit _)]
      split <;> simp [*]
    rw [← neg, ← neg, eq]
  unfold numeral at eq
  rw [if_congr sign rfl rfl] at eq
  have abs := congrArg (fun ds => Nat.ofDigits base (ds.map digits.idxOf))
    (reverse_inj.mp (append_cancel_left eq))
  simp only [back] at abs
  omega

theorem Kernel.value_eq (k : Conv) (a : UInt64) : Kernel.value (k.long a) k.sign = k.value a ↔
    (k.wide = false → k.sign = false → a.toUInt32.toNat < 2 ^ 31) := by
  unfold Conv.value Kernel.value Conv.long
  cases wide : k.wide <;> cases sign : k.sign
  · -- an `int` is extended with its sign
    have narrow := BitVec.toInt_eq_toNat_cond a.toUInt32.toBitVec
    have extended := BitVec.toInt_eq_toNat_cond a.toUInt32.toInt32.toInt64.toBitVec
    have same : a.toUInt32.toInt32.toInt64.toBitVec.toInt = a.toUInt32.toBitVec.toInt :=
      Int32.toInt_toInt64 _
    have bound := a.toUInt32.toInt32.toInt64.toBitVec.isLt
    have bound' := a.toUInt32.toBitVec.isLt
    show (a.toUInt32.toInt32.toInt64.toBitVec.toNat : Int) = a.toUInt32.toBitVec.toNat ↔
      (_ → _ → a.toUInt32.toBitVec.toNat < _)
    generalize a.toUInt32.toBitVec = x at *
    generalize a.toUInt32.toInt32.toInt64.toBitVec = y at *
    simp only [forall_const]
    split at narrow <;> split at extended <;> omega
  · simp [Int32.toInt_toInt64]
  · simp
  · simp

theorem Kernel.arg_iff (str : UInt64 → List Char) (k : Conv) (a : UInt64) :
    (Kernel.printer str).arg k a = (Kernel.printer str).value k a ↔ Kernel.Fits k a := by
  have two : 1 < k.base := by
    have := k.bases
    omega
  have arg : (Kernel.printer str).arg k a = _ := (arg_eq ..).trans (Kernel.printint_eq two _ _)
  rw [Printer.value, arg, Kernel.Fits, ← Kernel.value_eq, ← @numeral_length_le Kernel.digits _ two]
  generalize Kernel.value _ _ = v
  constructor
  · intro ok
    unfold fit at ok
    by_cases fits : (numeral Kernel.digits k.base v).length ≤ bufSize
    · rw [if_pos fits] at ok
      have same := numeral_inj Kernel.readable k.bases (Except.ok.inj ok)
      exact ⟨same ▸ fits, same⟩
    · rw [if_neg fits] at ok
      cases ok
  · rintro ⟨fits, same⟩
    rw [same, fit, if_pos fits]
    rfl

theorem User.value_eq (k : Conv) (a : UInt64) :
    User.value (k.long a).toInt32 k.sign = k.value a ↔ User.Fits k a := by
  unfold User.Fits Conv.value User.value Conv.long
  cases wide : k.wide <;> cases sign : k.sign
  · refine iff_of_true ?_ nofun
    exact congrArg (fun x : Int32 => (x.toUInt32.toNat : Int)) (Int32.toInt32_toInt64 _)
  · exact iff_of_true (congrArg Int32.toInt (Int32.toInt32_toInt64 _)) nofun
  · have same : a.toInt64.toInt32.toUInt32 = a.toUInt32 :=
      UInt32.toBitVec_inj.mp (BitVec.signExtend_eq_setWidth_of_le _ (by decide))
    show (a.toInt64.toInt32.toUInt32.toNat : Int) = a.toNat ↔ (_ → (a.toNat : Int) < _)
    rw [same, UInt64.toNat_toUInt32]
    simp only [forall_const]
    omega
  · show a.toInt64.toInt32.toInt = a.toInt64.toInt ↔ (_ → _ ≤ a.toInt64.toInt ∧ a.toInt64.toInt < _)
    rw [Int64.toInt_toInt32, Int.bmod_eq_iff (by decide)]
    simp only [forall_const]
    omega

theorem User.arg_iff (str : UInt64 → List Char) (k : Conv) (a : UInt64) :
    (User.printer str).arg k a = (User.printer str).value k a ↔ User.Fits k a := by
  have bases := k.bases
  have arg : (User.printer str).arg k a = _ :=
    (arg_eq ..).trans (User.printint_eq (by omega) _ _)
  have fits (xx : Int32) (sgn : Bool) :
      (numeral User.digits k.base (User.value xx sgn)).length ≤ bufSize := by
    rw [numeral_length_le (by omega)]
    have value : -2 ^ 32 < User.value xx sgn ∧ User.value xx sgn < 2 ^ 32 := by
      unfold User.value
      split
      · have := xx.le_toInt
        have := xx.toInt_lt
        omega
      · have := xx.toUInt32.toNat_lt
        omega
    rcases bases with base | base <;> rw [base] <;> omega
  rw [Printer.value, arg, fit, if_pos (fits ..), ← User.value_eq, Except.ok.injEq]
  exact ⟨numeral_inj User.readable bases, congrArg _⟩

/-- `print` shows the pieces of a format with what `printint` makes of the numbers. That is the
numeral if and only if the number `fits`, so that a format whose numbers all fit is shown with their
numerals. -/
structure Prints (io : Printer) (fits : Conv → UInt64 → Prop)
    (print : List Char → List UInt64 → Except Stop (List Char)) : Prop where
  eq : ∀ fmt args, print fmt args = shown io io.arg (pieces fmt) args
  exact : ∀ k a, io.arg k a = io.value k a ↔ fits k a
  right : ∀ fmt args, (∀ u ∈ numbers (pieces fmt) args, fits u.1 u.2) →
    print fmt args = shown io io.value (pieces fmt) args

theorem Prints.of_exact {print : List Char → List UInt64 → Except Stop (List Char)}
    {fits : Conv → UInt64 → Prop}
    (eq : ∀ fmt args, print fmt args = shown io io.arg (pieces fmt) args)
    (exact : ∀ k a, io.arg k a = io.value k a ↔ fits k a) : Prints io fits print := by
  refine ⟨eq, exact, fun fmt args ok => ?_⟩
  rw [eq, shown_congr fun u mem => (exact u.1 u.2).mpr (ok u mem)]

/-- Both functions print as `Prints` says, and every format has a text, with enough arguments. -/
theorem printf_shows (str : UInt64 → List Char) :
    Prints (Kernel.printer str) Kernel.Fits (Kernel.printf str) ∧
    Prints (User.printer str) User.Fits (User.vprintf str) ∧
    ∀ io fmt args, (pieces fmt).length ≤ args.length →
      ∃ out, shown io io.value (pieces fmt) args = .ok out :=
  ⟨.of_exact Kernel.printfLoop_scans.eq_shown (Kernel.arg_iff str),
    .of_exact User.vprintfLoop_scans.eq_shown (User.arg_iff str), fun io _ _ => exists_shown io⟩

theorem printf_shows_five :
    Kernel.printf (fun _ => []) ['%', 'd', '!'] [5] = .ok ['5', '!'] := by
  have parts : pieces ['%', 'd', '!'] = [.number ⟨['d'], false, true, false⟩, .char '!'] := by
    simp [pieces, conversions]
  rw [(printf_shows fun _ => []).1.right, parts]
  · rfl
  · rw [parts]
    intro u mem
    rw [mem_singleton.mp mem]
    exact ⟨by decide +kernel, by intros; contradiction⟩

/-- `%u` of the largest 32-bit number overflows the buffer of the kernel's `printint`, and `%lx` of
the smallest number with 33 bits prints `0` with the user's. -/
theorem printf_wrong :
    (shown (Kernel.printer fun _ => []) (Kernel.printer fun _ => []).value (pieces ['%', 'u'])
        [0xffffffff] = .ok "4294967295".toList ∧
      Kernel.printf (fun _ => []) ['%', 'u'] [0xffffffff] = .error .overflow) ∧
    shown (User.printer fun _ => []) (User.printer fun _ => []).value (pieces ['%', 'l', 'x'])
        [0x100000000] = .ok "100000000".toList ∧
      User.vprintf (fun _ => []) ['%', 'l', 'x'] [0x100000000] = .ok ['0'] := by
  refine ⟨⟨?_, by decide +kernel⟩, ?_, by decide +kernel⟩
  · rw [show pieces ['%', 'u'] = [.number ⟨['u'], false, false, false⟩] by
      simp [pieces, conversions]]
    decide +kernel
  · rw [show pieces ['%', 'l', 'x'] = [.number ⟨['l', 'x'], true, false, true⟩] by
      simp [pieces, conversions]]
    decide +kernel

end Xv6.Print
