import Xv6.Grep.Matcher

/-! The loop of `grep` in `user/grep.c`, over a stream that `read` may split in any way. -/

namespace Xv6.Grep

open List

abbrev newline : UInt8 := 10

abbrev bufSize : Nat := 1024

/-- `read`, which returns at most `k + 1` of the bytes that there are and that there is room for. -/
def read (room k : Nat) (input : List UInt8) : List UInt8 := input.take (min room (k + 1))

/-- `strchr(p, '\n')` in the bytes from `p` to `buf + m`: those before the newline, and those after
it. -/
def strchr : List UInt8 → Option (List UInt8 × List UInt8)
  | [] => none
  | b :: p =>
    if b = 0 then none
    else if b = newline then some ([], p)
    else (strchr p).map fun (text, rest) => (b :: text, rest)

/-- The loop over the lines in the buffer: what is written, and the bytes that are left at `p`.  There
are no more lines than bytes. -/
def grepLines (re : List UInt8) : Nat → List UInt8 → List (List UInt8) × List UInt8
  | 0, p => ([], p)
  | fuel + 1, p =>
    match strchr p with
    | none => ([], p)
    | some (text, rest) =>
      let (writes, left) := grepLines re fuel rest
      (if matchRe re text then (text ++ [newline]) :: writes else writes, left)

/-- The loop of `grep`, whose `i`-th `read` returns at most `sizes i + 1` bytes: what is written. -/
def grepLoop (re : List UInt8) (sizes : Nat → Nat) :
    Nat → Nat → List UInt8 → List UInt8 → Option (List (List UInt8))
  | 0, _, _, _ => none
  | fuel + 1, i, buf, input =>
    let got := read (bufSize - buf.length - 1) (sizes i) input
    if got = [] then some []
    else
      let (writes, left) := grepLines re (buf ++ got).length (buf ++ got)
      (grepLoop re sizes fuel (i + 1) left (input.drop got.length)).map (writes ++ ·)

def grep (re : List UInt8) (sizes : Nat → Nat) (input : List UInt8) : Option (List (List UInt8)) :=
  grepLoop re sizes (input.length + 1) 0 [] input

def stream (ls : List (List UInt8)) : List UInt8 := ls.flatMap (· ++ [newline])

def matching (re : List UInt8) (ls : List (List UInt8)) : List (List UInt8) :=
  (ls.filter (matchRe re)).map (· ++ [newline])

/-- The line has no NUL, and fits in the buffer with its newline. -/
def Fits (l : List UInt8) : Prop := 0 ∉ l ∧ l.length + 1 < bufSize

instance : DecidablePred Fits := fun _ => instDecidableAnd

/-- Whatever the buffer holds of the input, no newline is found in it. -/
def Stuck (input : List UInt8) : Prop :=
  ∀ p, p <+: input → p.length < bufSize → strchr p = none

variable {re p rest tail more buf input l : List UInt8} {ls : List (List UInt8)} {sizes : Nat → Nat}

theorem stream_cons : stream (l :: ls) = l ++ newline :: stream ls := by
  simp [stream]

theorem strchr_none (line : newline ∉ p) : strchr p = none := by
  induction p with
  | nil => rfl
  | cons b p ih =>
    obtain ⟨hb, hp⟩ := not_or.mp (mt mem_cons.mpr line)
    rw [strchr, ih hp, if_neg (Ne.symm hb), Option.map_none, ite_self]

theorem strchr_line (text : 0 ∉ l) (line : newline ∉ l) :
    strchr (l ++ newline :: rest) = some (l, rest) := by
  induction l with
  | nil => rfl
  | cons b l ih =>
    obtain ⟨hb, hl⟩ := not_or.mp (mt mem_cons.mpr line)
    obtain ⟨hz, ht⟩ := not_or.mp (mt mem_cons.mpr text)
    rw [cons_append, strchr, if_neg (Ne.symm hz), if_neg (Ne.symm hb), ih ht hl]
    rfl

/-- `strchr` does not look behind a NUL. -/
theorem strchr_nul (text : 0 ∈ l) (line : newline ∉ l) : strchr (l ++ rest) = none := by
  induction l with
  | nil => cases text
  | cons b l ih =>
    obtain ⟨hb, hl⟩ := not_or.mp (mt mem_cons.mpr line)
    rw [cons_append, strchr]
    by_cases nul : b = 0
    · exact if_pos nul
    · rw [if_neg nul, if_neg (Ne.symm hb),
        ih ((mem_cons.mp text).resolve_left (Ne.symm nul)) hl]
      rfl

theorem grepLines_stream (fits : ∀ l ∈ ls, Fits l ∧ newline ∉ l) (none : strchr tail = none)
    {fuel : Nat} (enough : ls.length ≤ fuel) :
    grepLines re fuel (stream ls ++ tail) = (matching re ls, tail) := by
  induction ls generalizing fuel with
  | nil =>
    cases fuel with
    | zero => rfl
    | succ fuel => rw [grepLines, show stream [] ++ tail = tail from rfl, none]; rfl
  | cons l ls ih =>
    obtain ⟨⟨⟨text, -⟩, line⟩, fits⟩ := forall_mem_cons.mp fits
    obtain ⟨fuel, rfl⟩ := Nat.exists_eq_add_of_lt (Nat.lt_of_lt_of_le (Nat.succ_pos _) enough)
    rw [Nat.zero_add, grepLines, stream_cons, append_assoc, cons_append,
      strchr_line text line]
    simp only [ih fits (Nat.le_of_succ_le_succ (by simpa using enough)), matching, filter_cons]
    split <;> rfl

theorem length_le_stream (ls : List (List UInt8)) : ls.length ≤ (stream ls).length := by
  induction ls with
  | nil => rfl
  | cons l ls ih =>
    rw [stream_cons, length_append, length_cons, length_cons]
    omega

/-- What has been read is a part of the first line, or goes past its newline. -/
theorem part_or_whole (e : p ++ rest = l ++ newline :: tail) :
    p <+: l ∨ ∃ q, p = l ++ newline :: q ∧ q ++ rest = tail := by
  obtain ⟨q, rfl, -⟩ | ⟨q, rfl, more⟩ := append_eq_append_iff.mp e
  · exact .inl (prefix_append ..)
  cases q with
  | nil => exact .inl (by rw [append_nil])
  | cons b q =>
    rw [cons_append, List.cons.injEq] at more
    exact .inr ⟨q, by rw [more.1], more.2.symm⟩

theorem stuck_tail (line : newline ∉ tail) : Stuck tail :=
  fun _ part _ => strchr_none fun h => line (part.subset h)

/-- A line that does not fit ends the search. -/
theorem stuck_line (line : newline ∉ l) (large : ¬Fits l) : Stuck (l ++ newline :: tail) := by
  rintro p ⟨rest, e⟩ short
  obtain part | ⟨q, rfl, -⟩ := part_or_whole e
  · exact strchr_none fun h => line (part.subset h)
  · refine strchr_nul (Classical.not_not.mp fun text => large ⟨text, ?_⟩) line
    rw [length_append, length_cons] at short
    omega

/-- What has been read is some lines and a part of the rest, in which no newline is found. -/
theorem read_lines (fits : ∀ l ∈ ls, Fits l ∧ newline ∉ l) (stuck : Stuck more)
    (e : p ++ rest = stream ls ++ more) (short : p.length < bufSize) :
    ∃ done todo tail, ls = done ++ todo ∧ p = stream done ++ tail ∧
      tail ++ rest = stream todo ++ more ∧ strchr tail = none := by
  induction ls generalizing p with
  | nil => exact ⟨[], [], p, rfl, rfl, e, stuck p ⟨rest, e⟩ short⟩
  | cons l ls ih =>
    obtain ⟨⟨-, line⟩, fits⟩ := forall_mem_cons.mp fits
    have e' := e
    rw [stream_cons, append_assoc] at e'
    obtain part | ⟨q, rfl, past⟩ := part_or_whole e'
    · exact ⟨[], l :: ls, p, rfl, rfl, e, strchr_none fun h => line (part.subset h)⟩
    · rw [length_append, length_cons] at short
      obtain ⟨done, todo, tail, rfl, rfl, more, none⟩ := ih fits past (by omega)
      refine ⟨l :: done, todo, tail, rfl, ?_, more, none⟩
      rw [stream_cons, append_assoc, cons_append]

/-- There is room in the buffer for more of a line that fits, and more of it to read. -/
theorem read_ne_nil (fits : Fits l) (line : newline ∉ l) (e : buf ++ input = l ++ newline :: tail)
    (none : strchr buf = none) (k : Nat) : read (bufSize - buf.length - 1) k input ≠ [] := by
  have part : buf <+: l := by
    refine (part_or_whole e).resolve_right ?_
    rintro ⟨q, rfl, -⟩
    rw [strchr_line fits.1 line] at none
    cases none
  have more : input ≠ [] := by
    rintro rfl
    rw [append_nil] at e
    exact line (part.subset (by simp [e]))
  have room := part.length_le
  have short : l.length + 1 < 1024 := fits.2
  rw [read, Ne, take_eq_nil_iff, not_or]
  exact ⟨by unfold bufSize; omega, more⟩

theorem grepLoop_stream {fuel i : Nat} (fits : ∀ l ∈ ls, Fits l ∧ newline ∉ l)
    (stuck : Stuck more) (e : buf ++ input = stream ls ++ more) (none : strchr buf = none)
    (short : buf.length < bufSize) (enough : input.length < fuel) :
    grepLoop re sizes fuel i buf input = some (matching re ls) := by
  -- a read that returns bytes leaves fewer to read
  induction fuel generalizing i buf input ls with
  | zero => exact (Nat.not_lt_zero _ enough).elim
  | succ fuel ih =>
    rw [grepLoop]
    have room : (read (bufSize - buf.length - 1) (sizes i) input).length ≤
        bufSize - buf.length - 1 := by
      rw [read, length_take]
      omega
    set got := read (bufSize - buf.length - 1) (sizes i) input
    by_cases last : got = []
    · rw [if_pos last]
      cases ls with
      | nil => rfl
      | cons l ls =>
        obtain ⟨⟨fits, line⟩, -⟩ := forall_mem_cons.mp fits
        rw [stream_cons, append_assoc] at e
        exact (read_ne_nil fits line e none (sizes i) last).elim
    rw [if_neg last]
    have split : got ++ input.drop got.length = input :=
      prefix_iff_eq_append.mp ( take_prefix ..)
    rw [← split, ← append_assoc] at e
    have held : (buf ++ got).length < bufSize := by
      rw [length_append]
      omega
    obtain ⟨done, todo, tail, rfl, eq, rest, none⟩ := read_lines fits stuck e held
    rw [forall_mem_append] at fits
    rw [eq] at held ⊢
    rw [length_append] at held
    have loop := ih (i := i + 1) fits.2 rest none (by omega) (by
      have := congrArg List.length split
      have := length_pos_of_ne_nil last
      simp only [length_append] at *
      omega)
    rw [grepLines_stream fits.1 none (by
      rw [length_append]
      have := length_le_stream done
      omega)]
    simp only [loop, Option.map_some, matching, filter_append, map_append]

/-- However `read` splits the stream, `grep` writes the lines that match, each whole and once, in
order, up to the first line that has a NUL or does not fit in the buffer.  So it writes the lines
that match if and only if none of those from there on does. -/
theorem grep_writes_matching (re : List UInt8) (sizes : Nat → Nat) (ls : List (List UInt8))
    (tail : List UInt8) (lines : ∀ l ∈ ls, newline ∉ l) (last : newline ∉ tail) :
    grep re sizes (stream ls ++ tail) = some (matching re (ls.takeWhile (Fits ·))) ∧
    (grep re sizes (stream ls ++ tail) = some (matching re ls) ↔
      ∀ l ∈ ls.dropWhile (Fits ·), matchRe re l = false) := by
  have whole := ls.takeWhile_append_dropWhile (p := (Fits ·))
  have stuck : Stuck (stream (ls.dropWhile (Fits ·)) ++ tail) := by
    have first := ls.head?_dropWhile_not (Fits ·)
    rw [← whole, forall_mem_append] at lines
    revert first lines
    cases ls.dropWhile (Fits ·) with
    | nil => exact fun _ _ => stuck_tail last
    | cons l rest =>
      intro lines large
      rw [stream_cons, append_assoc]
      exact stuck_line (lines.2 l mem_cons_self) (of_decide_eq_false large)
  have writes : grep re sizes (stream ls ++ tail) = some (matching re (ls.takeWhile (Fits ·))) := by
    refine grepLoop_stream (fun l mem => ⟨?_, ?_⟩) stuck ?_ rfl (by decide) (Nat.lt_succ_self _)
    · exact of_decide_eq_true (p := Fits l) (mem_takeWhile_imp (p := (Fits ·)) mem)
    · exact lines l (takeWhile_subset _ mem)
    · nth_rewrite 1 [← whole]
      simp only [stream, nil_append, flatMap_append, append_assoc]
  have all : matching re ls =
      matching re (ls.takeWhile (Fits ·)) ++ matching re (ls.dropWhile (Fits ·)) := by
    conv_lhs => rw [← whole]
    simp only [matching, filter_append, map_append]
  refine ⟨writes, ?_⟩
  rw [writes, Option.some_inj, all, self_eq_append_right]
  simp only [matching, map_eq_nil_iff, filter_eq_nil_iff, Bool.not_eq_true]

/-- The lines `ab` and `b` and one with a NUL, in single bytes. -/
theorem grep_writes_matching_two :
    grep [97] (fun _ => 0) (stream [[97, 98], [98], [0]] ++ [97]) =
      some (matching [97] [[97, 98], [98], [0]]) :=
  (grep_writes_matching [97] (fun _ => 0) [[97, 98], [98], [0]] [97] (by decide) (by decide)).2.mpr
    (by decide)

/-- A line of 1023 bytes fills the buffer and ends the loop, and after a NUL the newline is not
found. -/
theorem grep_drops_lines :
    grep [97] (fun _ => 1023) (stream [List.replicate 1023 97, [97]]) = some [] ∧
    grep [97] (fun _ => 1023) (stream [[97, 0], [97]]) = some [] ∧ matchRe [97] [97] = true := by
  decide +kernel

end Xv6.Grep
