import Xv6.Sh.Correctness

/-! The words of a parsed line as strings: `nulterminate` writes a NUL after each of them, which is
never inside another one. -/

namespace Xv6.Sh

open List

/-- The words of a command: its arguments and the files of its redirections. -/
def Cmd.spans : Cmd → List Span
  | .exec argv => argv
  | .redir cmd r => cmd.spans ++ [r.file]
  | .pipe left right => left.spans ++ right.spans
  | .list left right => left.spans ++ right.spans
  | .back cmd => cmd.spans

variable {cmd : Cmd}

section Spans

theorem Cmd.spans_redirs (cmd : Cmd) (rs : List Redir) :
    (cmd.redirs rs).spans = cmd.spans ++ rs.map (·.file) := by
  induction rs generalizing cmd with
  | nil => simp [Cmd.redirs]
  | cons r rs ih =>
    refine (ih (.redir cmd r)).trans ?_
    simp [Cmd.spans]

theorem Cmd.spans_back (cmd : Cmd) (n : Nat) : (Cmd.back^[n] cmd).spans = cmd.spans := by
  induction n generalizing cmd with
  | zero => rfl
  | succ n ih => exact ih (.back cmd)

def Words (ts : List Token) (spans : List Span) : Prop :=
  ∀ a ∈ spans, ∃ t ∈ ts, t.ret = ch 'a' ∧ t.span = a

variable {ts ts' : List Token} {as bs : List Span}

theorem Words.append (h : Words ts as) (h' : Words ts' bs) : Words (ts ++ ts') (as ++ bs) := by
  intro a mem
  rcases mem_append.mp mem with mem | mem
  · obtain ⟨t, ht, word⟩ := h a mem
    exact ⟨t, mem_append_left _ ht, word⟩
  · obtain ⟨t, ht, word⟩ := h' a mem
    exact ⟨t, mem_append_right _ ht, word⟩

theorem Words.sub (h : Words ts as) (sub : ts ⊆ ts') : Words ts' as := fun a mem =>
  let ⟨t, ht, word⟩ := h a mem
  ⟨t, sub ht, word⟩

theorem Words.cons {t : Token} (isWord : t.ret = ch 'a') (h : Words ts as) :
    Words (t :: ts) (t.span :: as) := by
  intro a mem
  rcases mem_cons.mp mem with rfl | mem
  · exact ⟨t, mem_cons_self .., isWord, rfl⟩
  · obtain ⟨t', ht, word⟩ := h a mem
    exact ⟨t', mem_cons_of_mem _ ht, word⟩

theorem Redirs.words {rs : List Redir} (h : Redirs ts rs) : Words ts (rs.map (·.file)) := by
  induction h with
  | nil => exact nofun
  | cons _ isWord _ ih => exact (Words.cons isWord ih).sub (subset_cons_self ..)

theorem Args.words {rs : List Redir} {argv : List Span} (h : Args ts rs argv) :
    Words ts (argv ++ rs.map (·.file)) := by
  induction h with
  | nil => exact nofun
  | @cons word ts1 ts2 rs1 rs2 argv isWord redirs _ ih =>
    have all := Words.cons isWord (redirs.words.append ih)
    intro a mem
    refine all a ?_
    simp only [map_append, mem_append, mem_cons] at mem ⊢
    tauto

theorem Derives.words {x : Nonterminal} (h : Derives x ts cmd) : Words ts cmd.spans := by
  induction h with
  | line _ _ ih =>
    rw [Cmd.spans_back]
    exact ih.sub (subset_append_left ..)
  | list _ _ _ _ ihPipe ihLine =>
    refine Words.append ?_ (ihLine.sub (subset_cons_self ..))
    rw [Cmd.spans_back]
    exact ihPipe.sub (subset_append_left ..)
  | single _ ih => exact ih
  | pipe _ _ _ ihExec ihPipe => exact ihExec.append (ihPipe.sub (subset_cons_self ..))
  | block _ _ _ redirs ih =>
    rw [Cmd.spans_redirs]
    exact (ih.sub (subset_cons_self ..)).append (redirs.words.sub (subset_cons_self ..))
  | exec redirs args _ =>
    rw [Cmd.spans_redirs]
    have all := redirs.words.append args.words
    intro a mem
    refine all a ?_
    simp only [Cmd.spans, map_append, mem_append] at mem ⊢
    tauto

end Spans

section Bytes

variable {buf buf' buf'' : List UInt8} {as bs : List Span} {i : Nat}

/-- `buf'` is `buf` with NULs after some words. -/
structure Nulled (buf buf' : List UInt8) (as : List Span) : Prop where
  nul : ∀ a ∈ as, buf'.getD a.eq 0 = 0
  same : ∀ i, (∀ a ∈ as, i ≠ a.eq) → buf'.getD i 0 = buf.getD i 0

theorem Nulled.trans (h : Nulled buf buf' as) (h' : Nulled buf' buf'' bs) :
    Nulled buf buf'' (as ++ bs) where
  nul a mem := by
    rcases mem_append.mp mem with mem | mem
    · by_cases again : ∃ b ∈ bs, a.eq = b.eq
      · obtain ⟨b, hb, eq⟩ := again
        rw [eq]
        exact h'.nul b hb
      · rw [h'.same a.eq fun b hb eq => again ⟨b, hb, eq⟩]
        exact h.nul a mem
    · exact h'.nul a mem
  same i other := by
    rw [h'.same i fun b hb => other b (mem_append_right _ hb),
      h.same i fun a ha => other a (mem_append_left _ ha)]

theorem Nulled.terminate (buf : List UInt8) (a : Span) : Nulled buf (terminate buf a.eq) [a] where
  nul b mem := by
    rw [mem_singleton.mp mem, Sh.terminate, getD_eq_getElem?_getD,
      List.getElem?_set_self']
    cases buf[a.eq]? <;> rfl
  same i other := by
    rw [Sh.terminate, getD_eq_getElem?_getD, getD_eq_getElem?_getD,
      List.getElem?_set_ne (other a (mem_singleton_self a)).symm]

theorem Nulled.foldl (as : List Span) :
    ∀ buf, Nulled buf (as.foldl (fun buf a => Sh.terminate buf a.eq) buf) as := by
  induction as with
  | nil => exact fun buf => ⟨nofun, fun _ _ => rfl⟩
  | cons a as ih => exact fun buf => (Nulled.terminate buf a).trans (ih _)

theorem nulterminate_nulled (cmd : Cmd) : ∀ buf, Nulled buf (nulterminate cmd buf) cmd.spans := by
  induction cmd with
  | exec argv => exact Nulled.foldl argv
  | redir cmd r ih => exact fun buf => (ih buf).trans (Nulled.terminate _ r.file)
  | pipe left right ihLeft ihRight => exact fun buf => (ihLeft buf).trans (ihRight _)
  | list left right ihLeft ihRight => exact fun buf => (ihLeft buf).trans (ihRight _)
  | back cmd ih => exact ih

theorem getD_drop (q : Nat) : (buf.drop q).getD i 0 = buf.getD (q + i) 0 := by
  rw [getD_eq_getElem?_getD, getD_eq_getElem?_getD, List.getElem?_drop]

theorem takeWhile_eq_take : ∀ (n : Nat) {xs ys : List UInt8}, (∀ i < n, ys.getD i 0 = xs.getD i 0) →
    (∀ i < n, xs.getD i 0 ≠ 0) → ys.getD n 0 = 0 →
    ys.takeWhile (· ≠ 0) = xs.take n
  | 0, xs, [], _, _, _ => by simp
  | 0, xs, y :: ys, _, _, nul => by
    have zero : y = 0 := nul
    simp [zero]
  | n + 1, xs, [], same, clean, _ => absurd (same 0 (Nat.succ_pos n)).symm (clean 0 (Nat.succ_pos n))
  | n + 1, [], y :: ys, same, clean, _ => absurd rfl (clean 0 (Nat.succ_pos n))
  | n + 1, x :: xs, y :: ys, same, clean, nul => by
    obtain rfl : y = x := same 0 (Nat.succ_pos n)
    have nonzero : y ≠ 0 := clean 0 (Nat.succ_pos n)
    have rest : ys.takeWhile (· ≠ 0) = xs.take n := takeWhile_eq_take n
      (fun i hi => same (i + 1) (Nat.succ_lt_succ hi))
      (fun i hi => clean (i + 1) (Nat.succ_lt_succ hi)) nul
    rw [takeWhile_cons_of_pos (by simpa using nonzero), rest, take_succ_cons]

end Bytes

section Line

variable {line rest : List UInt8}

theorem getD_line {i : Nat} (h : i < line.length) :
    (line ++ 0 :: rest).getD i 0 = line.getD i 0 := by
  rw [getD_append _ _ _ _ h]

theorem terminated_line (nulFree : 0 ∉ line) : Terminated (line ++ 0 :: rest) line.length where
  nul := by
    rw [getD_append_right _ _ _ _ le_rfl, Nat.sub_self]
    rfl
  clean i hi := by
    rw [getD_line hi, getD_eq_getElem _ _ hi]
    exact fun zero => nulFree (zero ▸ getElem_mem hi)

theorem strlen_line (nulFree : 0 ∉ line) : strlen (line ++ 0 :: rest) = line.length := by
  have clean : ∀ c ∈ line, (decide (c ≠ 0)) = true :=
    fun c mem => decide_eq_true fun zero => nulFree (zero ▸ mem)
  unfold strlen cstr
  rw [drop_zero, takeWhile_append_of_pos clean]
  simp

/-- After `nulterminate` a word of the tree is a string. -/
theorem cstr_nulterminate (nulFree : 0 ∉ line)
    (words : Words (tokens (line ++ 0 :: rest) line.length 0) cmd.spans) {a : Span}
    (mem : a ∈ cmd.spans) :
    cstr (nulterminate cmd (line ++ 0 :: rest)) a.q = line.extract a.q a.eq := by
  have isLine : Terminated (line ++ 0 :: rest) line.length := terminated_line nulFree
  have lexed : ∀ b ∈ cmd.spans, (∀ i, b.q ≤ i → i < b.eq → i < line.length ∧
      isWord ((line ++ 0 :: rest).getD i 0) = true) ∧ (b.eq < line.length →
      isWord ((line ++ 0 :: rest).getD b.eq 0) = false) := by
    intro b hb
    obtain ⟨t, ht, isWord, rfl⟩ := words b hb
    obtain ⟨s, lexes⟩ := mem_tokens isLine (Nat.zero_le _) ht
    obtain ⟨inside, after⟩ := lexes.word isWord
    exact ⟨fun i low high => ⟨lt_of_lt_of_le high lexes.bound, inside i low high⟩, after⟩
  have nulled := nulterminate_nulled cmd (line ++ 0 :: rest)
  -- no terminator falls inside the word
  have same : ∀ i, a.q ≤ i → i < a.eq → (nulterminate cmd (line ++ 0 :: rest)).getD i 0 =
      line.getD i 0 := by
    intro i low high
    obtain ⟨lt, word⟩ := (lexed a mem).1 i low high
    rw [nulled.same, getD_line lt]
    rintro b hb rfl
    rw [(lexed b hb).2 lt] at word
    cases word
  obtain ⟨t, ht, -, rfl⟩ := words a mem
  obtain ⟨s, lexes⟩ := mem_tokens isLine (Nat.zero_le _) ht
  have less : t.q < t.eq := by
    rw [lexes.q]
    exact lexes.less
  have sum {i : Nat} (hi : i < t.eq - t.q) : t.q + i < t.eq := by omega
  rw [extract_eq_take_drop]
  refine takeWhile_eq_take _ (fun i hi => ?_) (fun i hi => ?_) ?_
  · rw [getD_drop, getD_drop]
    exact same _ (Nat.le_add_right _ _) (sum hi)
  · have lt := ((lexed _ mem).1 _ (Nat.le_add_right _ i) (sum hi)).1
    have clean := isLine.clean _ lt
    rw [getD_line lt] at clean
    rwa [getD_drop]
  · rw [getD_drop, show t.span.q + (t.span.eq - t.span.q) = t.span.eq from
      Nat.add_sub_cancel' less.le]
    exact nulled.nul _ mem

/-- `parsecmd` after `parseline`. -/
def finish (buf : List UInt8) (es : Nat) (r : Cmd × Nat) : Except Stop (Cmd × List UInt8) :=
  if skip buf es isSpace r.2 ≠ es then .error (.leftovers (cstr buf (skip buf es isSpace r.2)))
  else .ok (r.1, nulterminate r.1 buf)

theorem finish_ne_fuel (buf : List UInt8) (es : Nat) (r : Cmd × Nat) :
    finish buf es r ≠ .error .fuel := by
  unfold finish
  split <;> exact nofun

theorem finish_ok {buf buf' : List UInt8} {es : Nat} {r : Cmd × Nat} :
    finish buf es r = .ok (cmd, buf') ↔
      skip buf es isSpace r.2 = es ∧ r.1 = cmd ∧ buf' = nulterminate cmd buf := by
  unfold finish
  split
  next left => exact ⟨nofun, fun h => absurd h.1 left⟩
  next done =>
    constructor
    · intro h
      cases h
      exact ⟨not_not.mp done, rfl, rfl⟩
    · rintro ⟨-, rfl, rfl⟩
      rfl

theorem parsecmd_eq (nulFree : 0 ∉ line) (fuel : Nat) : parsecmd fuel (line ++ 0 :: rest) =
    parseline (line ++ 0 :: rest) line.length fuel 0 >>=
      finish (line ++ 0 :: rest) line.length := by
  rw [parsecmd, strlen_line nulFree]
  rfl

theorem parsecmd_ok (nulFree : 0 ∉ line) {fuel : Nat} {buf' : List UInt8} :
    parsecmd fuel (line ++ 0 :: rest) = .ok (cmd, buf') ↔
    (∃ s, parseline (line ++ 0 :: rest) line.length fuel 0 = .ok (cmd, s) ∧
      skip (line ++ 0 :: rest) line.length isSpace s = line.length) ∧
    buf' = nulterminate cmd (line ++ 0 :: rest) := by
  rw [parsecmd_eq nulFree]
  constructor
  · intro h
    cases parsed : parseline (line ++ 0 :: rest) line.length fuel 0 with
    | error e =>
      rw [parsed] at h
      cases h
    | ok r =>
      rw [parsed] at h
      obtain ⟨done, rfl, rfl⟩ := finish_ok.mp h
      exact ⟨⟨r.2, rfl, done⟩, rfl⟩
  · rintro ⟨⟨s, parsed, done⟩, rfl⟩
    rw [parsed]
    exact finish_ok.mpr ⟨done, rfl, rfl⟩

/-- Every NUL-free line is parsed or refused. It is parsed exactly when its tokens derive from
`line`, to the tree of the derivation, and each word of the tree is then its token. -/
theorem parsecmd_grammar (line rest : List UInt8) (nulFree : 0 ∉ line) (fuel : Nat)
    (enough : 4 * line.length + 4 ≤ fuel) :
    parsecmd fuel (line ++ 0 :: rest) ≠ .error .fuel ∧
    (∀ cmd, (∃ buf', parsecmd fuel (line ++ 0 :: rest) = .ok (cmd, buf')) ↔
      Derives .line (tokens (line ++ 0 :: rest) line.length 0) cmd) ∧
    ∀ cmd buf', parsecmd fuel (line ++ 0 :: rest) = .ok (cmd, buf') → ∀ a ∈ cmd.spans,
      (∃ t ∈ tokens (line ++ 0 :: rest) line.length 0, t.ret = ch 'a' ∧ t.span = a) ∧
      cstr buf' a.q = line.extract a.q a.eq := by
  have isLine : Terminated (line ++ 0 :: rest) line.length := terminated_line nulFree
  have start : Rest (line ++ 0 :: rest) line.length 0
      (tokens (line ++ 0 :: rest) line.length 0) := ⟨Nat.zero_le _, rfl⟩
  have outcome := reads isLine fuel .line start
  have few : (tokens (line ++ 0 :: rest) line.length 0).length ≤ line.length :=
    tokensFrom_length _ _
  have long : ¬fuel < 4 * (tokens (line ++ 0 :: rest) line.length 0).length + depth .line := by
    simp only [depth]
    omega
  have derived : ∀ cmd buf', parsecmd fuel (line ++ 0 :: rest) = .ok (cmd, buf') →
      Derives .line (tokens (line ++ 0 :: rest) line.length 0) cmd := by
    intro cmd buf' ok
    obtain ⟨⟨s, parsed, done⟩, -⟩ := (parsecmd_ok nulFree).mp ok
    rw [parse, parsed] at outcome
    cases outcome with
    | @ok pre post _ _ split derives left =>
      rwa [split, (left.nil_iff isLine).mpr done, append_nil]
  refine ⟨?_, fun cmd => ⟨fun h => h.elim (derived cmd), fun derives => ?_⟩, ?_⟩
  · rw [parsecmd_eq nulFree]
    rw [parse] at outcome
    generalize parseline (line ++ 0 :: rest) line.length fuel 0 = r at outcome
    cases outcome with
    | fuel short => exact absurd short long
    | panic msg => rintro ⟨⟩
    | ok _ _ _ => exact finish_ne_fuel _ _ _
  · have found : Yields _ _ _ cmd [] :=
      derives.complete isLine fuel (by rwa [append_nil]) (.inl rfl)
    rw [parse] at found outcome
    rcases found with out | ⟨s, parsed, left⟩
    · rw [out] at outcome
      cases outcome with
      | fuel short => exact absurd short long
    · exact ⟨_, (parsecmd_ok nulFree).mpr ⟨⟨s, parsed, (left.nil_iff isLine).mp rfl⟩, rfl⟩⟩
  · intro cmd buf' ok a mem
    have words := (derived cmd buf' ok).words
    obtain ⟨-, rfl⟩ := (parsecmd_ok nulFree).mp ok
    exact ⟨words a mem, cstr_nulterminate nulFree words mem⟩

/-- `(a>>b;c)|d&`. -/
def blockLine : List UInt8 :=
  [ch '(', ch 'a', ch '>', ch '>', ch 'b', ch ';', ch 'c', ch ')', ch '|', ch 'd', ch '&']

/-- The line in a buffer with the rest of an older one behind it. -/
theorem parsecmd_grammar_block : ∃ cmd buf',
    parsecmd 100 (blockLine ++ 0 :: [ch 'x', 10]) = .ok (cmd, buf') ∧
    cmd = .back (.pipe (.list (.redir (.exec [⟨1, 2⟩]) ⟨⟨4, 5⟩, oWronly ||| oCreate, 1⟩)
      (.exec [⟨6, 7⟩])) (.exec [⟨9, 10⟩])) ∧
    Derives .line (tokens (blockLine ++ 0 :: [ch 'x', 10]) 11 0) cmd ∧
    cstr buf' 4 = [ch 'b'] := by
  have nulFree : 0 ∉ blockLine := by decide
  obtain ⟨-, trees, words⟩ := parsecmd_grammar blockLine [ch 'x', 10] nulFree 100 (by decide)
  have run : parsecmd 100 (blockLine ++ 0 :: [ch 'x', 10]) = .ok (.back (.pipe (.list
      (.redir (.exec [⟨1, 2⟩]) ⟨⟨4, 5⟩, oWronly ||| oCreate, 1⟩) (.exec [⟨6, 7⟩]))
      (.exec [⟨9, 10⟩])), [ch '(', ch 'a', 0, ch '>', ch 'b', 0, ch 'c', 0, ch '|', ch 'd', 0, 0,
        ch 'x', 10]) := by
    decide +kernel
  refine ⟨_, _, run, rfl, (trees _).mp ⟨_, run⟩, ?_⟩
  exact (words _ _ run ⟨4, 5⟩ (by decide)).2

end Line

end Xv6.Sh
