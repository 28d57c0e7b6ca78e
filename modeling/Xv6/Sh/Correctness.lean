import Xv6.Sh.Grammar

/-! The parser of the shell is right: it returns the tree of a derivation, for every derivation, and
it stops. -/

namespace Xv6.Sh

open List

variable {s : Nat}

section Outcomes

variable {buf : List UInt8} {es : Nat} {ts : List Token}

/-- A tree for a part of the tokens with the position after them, a panic, or the end of a fuel that
was `short`. -/
inductive Outcome (buf : List UInt8) (es : Nat) (D : List Token → Cmd → Prop) (short : Prop)
    (ts : List Token) : Except Stop (Cmd × Nat) → Prop
  | fuel : short → Outcome buf es D short ts (.error .fuel)
  | panic (msg : String) : Outcome buf es D short ts (.error (.panic msg))
  | ok {pre post : List Token} {cmd : Cmd} {s : Nat} : ts = pre ++ post → D pre cmd →
      Rest buf es s post → Outcome buf es D short ts (.ok (cmd, s))

variable {D D' : List Token → Cmd → Prop} {short short' : Prop}
  {r : Except Stop (Cmd × Nat)} {f : Cmd × Nat → Except Stop (Cmd × Nat)}

theorem Outcome.mono (h : Outcome buf es D short ts r) (shorter : short → short')
    (sub : ∀ pre cmd, D pre cmd → D' pre cmd) : Outcome buf es D' short' ts r := by
  cases h with
  | fuel h => exact .fuel (shorter h)
  | panic msg => exact .panic msg
  | ok split d rest => exact .ok split (sub _ _ d) rest

theorem Outcome.nothing (d : D [] cmd) (rest : Rest buf es s ts) :
    Outcome buf es D short ts (.ok (cmd, s)) :=
  .ok (nil_append ts).symm d rest

theorem Outcome.bind (h : Outcome buf es D short ts r) (shorter : short → short')
    (next : ∀ {pre post cmd s}, ts = pre ++ post → D pre cmd → Rest buf es s post →
      Outcome buf es D' short' ts (f (cmd, s))) : Outcome buf es D' short' ts (r >>= f) := by
  cases h with
  | fuel h => exact .fuel (shorter h)
  | panic msg => exact .panic msg
  | ok split d rest => exact next split d rest

theorem Outcome.prepend (h : Outcome buf es D short back r) (front : List Token)
    (shorter : short → short') (join : ∀ pre cmd, D pre cmd → D' (front ++ pre) cmd) :
    Outcome buf es D' short' (front ++ back) r := by
  cases h with
  | fuel h => exact .fuel (shorter h)
  | panic msg => exact .panic msg
  | @ok pre post _ _ split d rest =>
    exact .ok (by rw [split, append_assoc]) (join _ _ d) rest

end Outcomes

variable {c : UInt8} {ts : List Token}

section Sound

variable {buf : List UInt8} {es : Nat}

theorem parseredirs_outcome (line : Terminated buf es) : ∀ (n : Nat) (cmd : Cmd) {s : Nat}
    {ts : List Token}, Rest buf es s ts →
    Outcome buf es (fun pre c => ∃ rs, Redirs pre rs ∧ c = cmd.redirs rs) (n ≤ ts.length) ts
      (parseredirs buf es n cmd s)
  | 0, _, _, _, _ => .fuel (Nat.zero_le _)
  | n + 1, cmd, s, ts, rest => by
    cases isOp : starts [ch '<', ch '>'] ts with
    | false =>
      obtain ⟨s', rest', eq⟩ := parseredirs_end line rest isOp
      rw [eq]
      exact .nothing ⟨[], .nil, rfl⟩ rest'
    | true =>
      cases ts with
      | nil => cases isOp
      | cons op ts1 =>
        obtain ⟨mode, fd, op'⟩ := starts_redir.mp isOp
        by_cases found : ∃ word ts2, ts1 = word :: ts2 ∧ word.ret = ch 'a'
        · obtain ⟨word, ts2, rfl, isWord⟩ := found
          obtain ⟨s', rest', eq⟩ := parseredirs_op line op' isWord rest
          rw [eq]
          refine (parseredirs_outcome line n _ rest').prepend [op, word] ?_ ?_
          · intro short
            simp only [length_cons]
            omega
          · rintro pre c ⟨rs, redirs, rfl⟩
            exact ⟨_, .cons op' isWord redirs, rfl⟩
        · rw [parseredirs_missing line isOp rest
            fun word ts2 split isWord => found ⟨word, ts2, split, isWord⟩]
          exact .panic _

theorem parsebacks_outcome (line : Terminated buf es) : ∀ (n : Nat) {cmd : Cmd} {s : Nat}
    {ts : List Token}, Rest buf es s ts →
    Outcome buf es (fun pre c => (∀ t ∈ pre, t.ret = ch '&') ∧ c = Cmd.back^[pre.length] cmd)
      (n ≤ ts.length) ts (parsebacks buf es n cmd s)
  | 0, _, _, _, _ => .fuel (Nat.zero_le _)
  | n + 1, cmd, s, ts, rest => by
    cases isAmp : starts [ch '&'] ts with
    | false =>
      obtain ⟨s', rest', eq⟩ := parsebacks_end line rest isAmp
      rw [eq]
      exact .nothing ⟨nofun, rfl⟩ rest'
    | true =>
      cases ts with
      | nil => cases isAmp
      | cons t ts1 =>
        have amp : t.ret = ch '&' := (starts_single (by decide)).mp isAmp
        obtain ⟨s', rest', eq⟩ := parsebacks_amp line amp rest
        rw [eq]
        refine (parsebacks_outcome line n rest').prepend [t] ?_ ?_
        · intro short
          simp only [length_cons]
          omega
        · rintro pre c ⟨amps, rfl⟩
          refine ⟨fun t' mem => ?_, rfl⟩
          rcases mem_cons.mp mem with rfl | mem
          · exact amp
          · exact amps t' mem

theorem parseargs_outcome (line : Terminated buf es) : ∀ (n : Nat) (argv : List Span)
    (rs : List Redir) {s : Nat} {ts : List Token}, argv.length < maxArgs → Rest buf es s ts →
    Outcome buf es (fun pre c => ∃ rs' argv', Args pre rs' argv' ∧
        (argv ++ argv').length < maxArgs ∧ c = (Cmd.exec (argv ++ argv')).redirs (rs ++ rs'))
      (n ≤ ts.length) ts (parseargs buf es n ((Cmd.exec argv).redirs rs) argv.length s)
  | 0, _, _, _, _, _, _ => .fuel (Nat.zero_le _)
  | n + 1, argv, rs, s, ts, few, rest => by
    have here : ∃ rs' argv', Args [] rs' argv' ∧ (argv ++ argv').length < maxArgs ∧
        (Cmd.exec argv).redirs rs = (Cmd.exec (argv ++ argv')).redirs (rs ++ rs') :=
      ⟨[], [], .nil, by rwa [append_nil], by rw [append_nil, append_nil]⟩
    cases ts with
    | nil =>
      obtain ⟨s', rest', eq⟩ := parseargs_end line rest (.inl rfl)
      rw [eq]
      exact .nothing here rest'
    | cons t ts1 =>
      by_cases isWord : t.ret = ch 'a'
      · obtain ⟨s', rest', eq⟩ := parseargs_word line isWord rest
        rw [eq]
        split
        · exact .panic _
        next room =>
          rw [Cmd.addArg_redirs]
          have length : (argv ++ [t.span]).length = argv.length + 1 := length_append
          have head : Outcome buf es (fun pre c => ∃ ts2 rs2, pre = t :: ts2 ∧ Redirs ts2 rs2 ∧
                c = (Cmd.exec (argv ++ [t.span])).redirs (rs ++ rs2))
              (n + 1 ≤ (t :: ts1).length) (t :: ts1)
              (parseredirs buf es n ((Cmd.exec (argv ++ [t.span])).redirs rs) s') := by
            refine (parseredirs_outcome line n _ rest').prepend [t] ?_ ?_
            · intro short
              rw [length_cons]
              omega
            · rintro pre c ⟨rs2, redirs, rfl⟩
              exact ⟨pre, rs2, rfl, redirs, (Cmd.redirs_append ..).symm⟩
          refine head.bind id ?_
          rintro _ post _ s2 split ⟨ts2, rs2, rfl, redirs, rfl⟩ rest2
          have next := parseargs_outcome line n (argv ++ [t.span]) (rs ++ rs2) (by omega) rest2
          obtain rfl : ts1 = ts2 ++ post := List.cons.inj split |>.2
          rw [split, ← length]
          refine next.prepend _ (fun short => ?_) ?_
          · rw [length_append, length_cons]
            omega
          · rintro pre c ⟨rs', argv', args, few', rfl⟩
            refine ⟨rs2 ++ rs', t.span :: argv', .cons isWord redirs args, ?_, ?_⟩
            · rwa [append_assoc] at few'
            · rw [append_assoc, append_assoc]
              rfl
      · cases stop : starts closers (t :: ts1) with
        | true =>
          obtain ⟨s', rest', eq⟩ := parseargs_end line rest (.inr stop)
          rw [eq]
          exact .nothing here rest'
        | false =>
          rw [parseargs_panic line isWord rest stop]
          exact .panic _

/-- The fuel that a procedure needs apart from that for the tokens. -/
def depth : Nonterminal → Nat
  | .line => 4
  | .pipe => 3
  | .exec => 2

variable {n : Nat}

/-- The procedures read derivations when their fuel is `n`, which is enough for the tokens. -/
def Reads (buf : List UInt8) (es n : Nat) : Prop :=
  ∀ (x : Nonterminal) {s : Nat} {ts : List Token}, Rest buf es s ts →
    Outcome buf es (Derives x) (n < 4 * ts.length + depth x) ts (parse buf es x n s)

theorem Reads.accept (line : Terminated buf es) (reads : Reads buf es n) (mem : c ∈ single)
    (rest : Rest buf es s ts) (x : Nonterminal) (cmd : Cmd) (join : Cmd → Cmd) :
    Outcome buf es (fun pre c' => pre = [] ∧ c' = cmd ∨
        ∃ t pre' right, pre = t :: pre' ∧ t.ret = c ∧ Derives x pre' right ∧ c' = join right)
      (n + 1 < 4 * ts.length + depth x) ts
      (accept buf es c s (fun s => parse buf es x n s >>= fun q => .ok (join q.1, q.2))
        fun s => .ok (cmd, s)) := by
  rcases rest.accept line mem (fun s => parse buf es x n s >>= fun q => .ok (join q.1, q.2))
      (fun s => Except.ok (cmd, s)) with
    ⟨t, ts', s', rfl, isC, rest', eq⟩ | ⟨-, s', rest', eq⟩
  · rw [eq]
    have joined : Outcome buf es (fun pre c' => ∃ right, Derives x pre right ∧ c' = join right)
        (n < 4 * ts'.length + depth x) ts'
        (parse buf es x n s' >>= fun q => .ok (join q.1, q.2)) :=
      (reads x rest').bind id fun split derives rest1 => .ok split ⟨_, derives, rfl⟩ rest1
    refine joined.prepend [t] (fun short => ?_) ?_
    · rw [length_cons]
      omega
    · rintro pre _ ⟨right, derives, rfl⟩
      exact .inr ⟨t, pre, right, rfl, isC, derives, rfl⟩
  · rw [eq]
    exact .nothing (.inl ⟨rfl, rfl⟩) rest'

theorem Reads.pipe (line : Terminated buf es) (reads : Reads buf es n) (rest : Rest buf es s ts) :
    Outcome buf es (Derives .pipe) (n + 1 < 4 * ts.length + depth .pipe) ts
      (parsepipe buf es (n + 1) s) := by
  rw [parsepipe_succ]
  refine (reads .exec rest).bind (fun short => ?_) fun {pre post cmd s1} split exec rest1 => ?_
  · simp only [depth] at short ⊢
    omega
  rw [split]
  refine (reads.accept line (by decide) rest1 .pipe cmd (.pipe cmd)).prepend _ (fun short => ?_) ?_
  · rw [length_append]
    omega
  rintro _ _ (⟨rfl, rfl⟩ | ⟨bar, ts', right, rfl, isBar, derives, rfl⟩)
  · rw [append_nil]
    exact .single exec
  · exact .pipe exec isBar derives

theorem Reads.line (line : Terminated buf es) (reads : Reads buf es n) (rest : Rest buf es s ts) :
    Outcome buf es (Derives .line) (n + 1 < 4 * ts.length + depth .line) ts
      (parseline buf es (n + 1) s) := by
  rw [parseline_succ]
  refine (reads .pipe rest).bind (fun short => ?_) fun {pre post cmd s1} split pipe rest1 => ?_
  · simp only [depth] at short ⊢
    omega
  rw [split]
  suffices tail : Outcome buf es (fun amps c => Derives .line (pre ++ amps) c)
      (n + 1 < 4 * post.length + depth .line) post _ by
    refine tail.prepend _ (fun short => ?_) fun _ _ => id
    rw [length_append]
    omega
  refine (parsebacks_outcome line n rest1).bind (fun short => ?_) ?_
  · simp only [depth]
    omega
  rintro amps post' _ s2 rfl ⟨isAmp, rfl⟩ rest2
  refine (reads.accept line (by decide) rest2 .line (Cmd.back^[amps.length] cmd)
    (.list (Cmd.back^[amps.length] cmd))).prepend _ (fun short => ?_) ?_
  · rw [length_append]
    omega
  rintro _ _ (⟨rfl, rfl⟩ | ⟨semi, ts', right, rfl, isSemi, derives, rfl⟩)
  · rw [append_nil]
    exact .line pipe isAmp
  · rw [← append_assoc]
    exact .list pipe isAmp isSemi derives

theorem Reads.block (line : Terminated buf es) (reads : Reads buf es n) {ts : List Token}
    (rest : Rest buf es s ts) :
    Outcome buf es (Derives .exec) (n + 1 < 4 * ts.length + 1) ts
      (parseblock buf es (n + 1) s) := by
  rw [parseblock_succ]
  rcases rest.accept line (c := ch '(') (by decide) _ _ with
    ⟨opens, ts1, s1, rfl, isOpen, rest1, eq⟩ | ⟨-, s1, rest1, eq⟩
  · rw [eq]
    suffices tail : Outcome buf es (fun pre c => Derives .exec (opens :: pre) c)
        (n < 4 * ts1.length + depth .line) ts1 _ by
      refine tail.prepend [opens] (fun short => ?_) fun _ _ => id
      simp only [depth, length_cons] at short ⊢
      omega
    refine (reads .line rest1).bind id fun {pre post cmd s2} split inner rest2 => ?_
    rw [split]
    rcases rest2.accept line (c := ch ')') (by decide) (parseredirs buf es n cmd) _ with
      ⟨closes, ts2, s3, rfl, isClose, rest3, eq⟩ | ⟨-, s3, rest3, eq⟩
    · rw [eq]
      rw [append_cons]
      refine (parseredirs_outcome line n cmd rest3).prepend (pre ++ [closes])
        (fun short => ?_) ?_
      · simp only [length_append, length_singleton]
        omega
      · rintro ts3 _ ⟨rs, redirs, rfl⟩
        rw [append_assoc]
        exact .block isOpen inner isClose redirs
    · rw [eq]
      exact .panic _
  · rw [eq]
    exact .panic _

theorem Reads.exec (line : Terminated buf es)
    (block : ∀ {s ts}, Rest buf es s ts → Outcome buf es (Derives .exec) (n < 4 * ts.length + 1) ts
      (parseblock buf es n s)) (rest : Rest buf es s ts) :
    Outcome buf es (Derives .exec) (n + 1 < 4 * ts.length + depth .exec) ts
      (parseexec buf es (n + 1) s) := by
  rw [parseexec_succ]
  obtain ⟨s1, hp, rest1⟩ := rest.peek line [ch '('] (by decide)
  rw [hp]
  split
  · refine (block rest1).mono (fun short => ?_) fun _ _ => id
    simp only [depth]
    omega
  refine (parseredirs_outcome line n _ rest1).bind (fun short => ?_) ?_
  · simp only [depth]
    omega
  rintro pre post _ s2 rfl ⟨rs, redirs, rfl⟩ rest2
  refine (parseargs_outcome line n [] rs (by decide) rest2).prepend _
    (fun short => ?_) ?_
  · simp only [depth, length_append]
    omega
  rintro ts' _ ⟨rs', argv, args, few, rfl⟩
  exact .exec redirs args few

theorem reads (line : Terminated buf es) (n : Nat) : Reads buf es n := by
  -- `parseexec` and `parseblock` take a unit of fuel each before `parseline`
  induction n using Nat.strong_induction_on with
  | _ n ih =>
    intro x s ts rest
    cases n with
    | zero =>
      have short : 0 < 4 * ts.length + depth x := by cases x <;> exact Nat.succ_pos _
      rw [parse_zero]
      exact .fuel short
    | succ n =>
      have before := ih n (Nat.lt_succ_self n)
      cases x with
      | line => exact before.line line rest
      | pipe => exact before.pipe line rest
      | exec =>
        refine Reads.exec line (fun {s ts} rest => ?_) rest
        cases n with
        | zero =>
          rw [parseblock]
          exact .fuel (Nat.succ_pos _)
        | succ n => exact (ih n (by omega)).block line rest

end Sound

section Complete

variable {buf : List UInt8} {es : Nat} {post pre : List Token} {x : Nonterminal} {rs : List Redir}

/-- With enough fuel the result is the tree, before the tokens `post`. -/
def Yields (buf : List UInt8) (es : Nat) (r : Except Stop (Cmd × Nat)) (cmd : Cmd)
    (post : List Token) : Prop :=
  r = .error .fuel ∨ ∃ s, r = .ok (cmd, s) ∧ Rest buf es s post

theorem Yields.bind (h : Yields buf es r cmd post)
    (next : ∀ s, Rest buf es s post → Yields buf es (f (cmd, s)) cmd' post') :
    Yields buf es (r >>= f) cmd' post' := by
  rcases h with rfl | ⟨s, rfl, rest⟩
  · exact .inl rfl
  · exact next s rest

/-- The tokens that can stand after what derives from a nonterminal. -/
def follow : Nonterminal → List UInt8
  | .line => [ch ')']
  | .pipe => [ch ')', ch '&', ch ';']
  | .exec => closers

def Follows (x : Nonterminal) (post : List Token) : Prop :=
  post = [] ∨ starts (follow x) post = true

theorem Follows.starts_false (h : Follows x post)
    (apart : (follow x).all fun c => c ∉ toks) : starts toks post = false := by
  rcases h with rfl | h
  · rfl
  · cases post with
    | nil => rfl
    | cons t post =>
      rw [starts_cons, contains_iff_mem] at h
      have out := all_eq_true.mp apart _ h
      rw [starts_cons]
      simpa using out

theorem Follows.mono (h : Follows x post) (sub : follow x ⊆ follow y) : Follows y post := by
  refine h.imp_right fun h => ?_
  cases post with
  | nil => cases h
  | cons t post =>
    rw [starts_cons, contains_iff_mem] at h ⊢
    exact sub h

theorem follows_of_ret (isC : t.ret = c) (mem : c ∈ follow x) : Follows x (t :: post) := by
  refine .inr ((starts_iff ?_ ?_).mpr (by rwa [isC])) <;> cases x <;> decide

theorem Redirs.complete (line : Terminated buf es) (h : Redirs pre rs)
    (stop : starts [ch '<', ch '>'] post = false) :
    ∀ (n : Nat) (cmd : Cmd) {s : Nat}, Rest buf es s (pre ++ post) →
      Yields buf es (parseredirs buf es n cmd s) (cmd.redirs rs) post := by
  induction h with
  | nil =>
    intro n cmd s rest
    cases n with
    | zero => exact .inl rfl
    | succ n =>
      obtain ⟨s', rest', eq⟩ := parseredirs_end line rest stop
      exact .inr ⟨s', eq, rest'⟩
  | cons isOp isWord _ ih =>
    intro n cmd s rest
    cases n with
    | zero => exact .inl rfl
    | succ n =>
      obtain ⟨s', rest', eq⟩ := parseredirs_op line isOp isWord rest
      rw [eq]
      exact ih n _ rest'

theorem parsebacks_complete (line : Terminated buf es)
    (stop : starts [ch '&'] post = false) : ∀ {amps : List Token}, (∀ t ∈ amps, t.ret = ch '&') →
    ∀ (n : Nat) (cmd : Cmd) {s : Nat}, Rest buf es s (amps ++ post) →
      Yields buf es (parsebacks buf es n cmd s) (Cmd.back^[amps.length] cmd) post
  | [], _, 0, _, _, _ => .inl rfl
  | [], _, n + 1, cmd, s, rest => by
    obtain ⟨s', rest', eq⟩ := parsebacks_end line rest stop
    exact .inr ⟨s', eq, rest'⟩
  | t :: amps, _, 0, _, _, _ => .inl rfl
  | t :: amps, isAmp, n + 1, cmd, s, rest => by
    obtain ⟨s', rest', eq⟩ := parsebacks_amp line (isAmp t (mem_cons_self ..)) rest
    rw [eq]
    exact parsebacks_complete line stop (fun t' mem => isAmp t' (mem_cons_of_mem _ mem)) n _
      rest'

theorem Args.starts_false (h : Args ts rs argv) (sub : toks ⊆ symbols)
    (stop : starts toks post = false) : starts toks (ts ++ post) = false := by
  cases h with
  | nil => exact stop
  | cons isWord _ _ => exact starts_of_word sub isWord

theorem Args.complete (line : Terminated buf es) (h : Args pre rs' argv')
    (follows : Follows .exec post) : ∀ (n : Nat) (argv : List Span) (rs : List Redir) {s : Nat},
      (argv ++ argv').length < maxArgs → Rest buf es s (pre ++ post) →
      Yields buf es (parseargs buf es n ((Cmd.exec argv).redirs rs) argv.length s)
        ((Cmd.exec (argv ++ argv')).redirs (rs ++ rs')) post := by
  induction h with
  | nil =>
    intro n argv rs s few rest
    cases n with
    | zero => exact .inl rfl
    | succ n =>
      obtain ⟨s', rest', eq⟩ := parseargs_end line rest follows
      rw [append_nil, append_nil]
      exact .inr ⟨s', eq, rest'⟩
  | @cons word ts ts' rs1 rs2 argv' isWord redirs args ih =>
    intro n argv rs s few rest
    cases n with
    | zero => exact .inl rfl
    | succ n =>
      replace rest : Rest buf es s (word :: (ts ++ (ts' ++ post))) := by
        rwa [append_assoc] at rest
      obtain ⟨s', rest', eq⟩ := parseargs_word line isWord rest
      have length : (argv ++ [word.span]).length = argv.length + 1 := length_append
      have few' : (argv ++ [word.span] ++ argv').length < maxArgs := by
        rwa [append_assoc]
      have room : ¬argv.length + 1 ≥ maxArgs := by
        rw [length_append, length] at few'
        omega
      have stop : starts [ch '<', ch '>'] (ts' ++ post) = false :=
        args.starts_false (by decide) (follows.starts_false (by decide))
      rw [eq, if_neg room, Cmd.addArg_redirs]
      refine (redirs.complete line stop n _ rest').bind fun s1 rest1 => ?_
      have next := ih n (argv ++ [word.span]) (rs ++ rs1) few' rest1
      rw [← length, ← Cmd.redirs_append]
      rwa [append_assoc, append_assoc] at next

theorem Rest.accept_yes {β : Type} (line : Terminated buf es) (rest : Rest buf es s (t :: ts))
    (mem : c ∈ single) (isC : t.ret = c) (yes no : Nat → β) :
    ∃ s', Rest buf es s' ts ∧ Sh.accept buf es c s yes no = yes s' := by
  rcases rest.accept line mem yes no with ⟨_, _, s', split, -, rest', eq⟩ | ⟨other, -⟩
  · obtain ⟨rfl, rfl⟩ := List.cons.inj split
    exact ⟨s', rest', eq⟩
  · rw [(starts_single (plain_of_single mem)).mpr isC] at other
    cases other

theorem Rest.accept_no {β : Type} (line : Terminated buf es) (rest : Rest buf es s ts)
    (mem : c ∈ single) (other : starts [c] ts = false)
    (yes no : Nat → β) : ∃ s', Rest buf es s' ts ∧ Sh.accept buf es c s yes no = no s' := by
  rcases rest.accept line mem yes no with ⟨t, ts', s', rfl, isC, -⟩ | ⟨-, found⟩
  · rw [(starts_single (plain_of_single mem)).mpr isC] at other
    cases other
  · exact found

theorem follows_amps (isAmp : ∀ t ∈ amps, t.ret = ch '&')
    (follows : Follows .pipe post) : Follows .pipe (amps ++ post) := by
  cases amps with
  | nil => exact follows
  | cons t amps =>
    exact follows_of_ret (isAmp t (mem_cons_self ..)) (by decide)

theorem Redirs.starts_paren (h : Redirs ts rs)
    (stop : starts [ch '('] post = false) : starts [ch '('] (ts ++ post) = false := by
  cases h with
  | nil => exact stop
  | @cons op word mode fd ts rs isOp _ _ =>
    by_contra yes
    have paren : op.ret = ch '(' := (starts_single (by decide)).mp (Bool.not_eq_false _ ▸ yes)
    rw [paren] at isOp
    generalize h : ch '(' = c at isOp
    cases isOp <;> exact absurd h (by decide)

theorem Derives.complete (line : Terminated buf es)
    (h : Derives x pre cmd) : ∀ (n : Nat) {s : Nat} {post : List Token},
    Rest buf es s (pre ++ post) → Follows x post →
    Yields buf es (parse buf es x n s) cmd post := by
  induction h with
  | @line ts amps cmd _ isAmp ih =>
    intro n s post rest follows
    cases n with
    | zero => exact .inl (parse_zero ..)
    | succ n =>
      have after : Follows .pipe post := follows.mono (by decide)
      rw [append_assoc] at rest
      rw [parse, parseline_succ]
      refine (ih n rest (follows_amps isAmp after)).bind fun s1 rest1 => ?_
      refine (parsebacks_complete line (follows.starts_false (by decide)) isAmp n cmd rest1).bind
        fun s2 rest2 => ?_
      obtain ⟨s3, rest3, eq⟩ := rest2.accept_no line (c := ch ';') (by decide)
        (follows.starts_false (by decide)) _ _
      exact .inr ⟨s3, eq, rest3⟩
  | @list ts amps ts' semi cmd right _ isAmp isSemi _ ihPipe ihLine =>
    intro n s post rest follows
    cases n with
    | zero => exact .inl (parse_zero ..)
    | succ n =>
      have after : Follows .pipe (semi :: (ts' ++ post)) :=
        follows_of_ret isSemi (by decide)
      have stop : starts [ch '&'] (semi :: (ts' ++ post)) = false := by
        by_contra yes
        have amp := (starts_single (by decide)).mp (Bool.not_eq_false _ ▸ yes)
        exact absurd (isSemi.symm.trans amp) (by decide)
      rw [append_assoc, append_assoc] at rest
      rw [parse, parseline_succ]
      refine (ihPipe n rest (follows_amps isAmp after)).bind fun s1 rest1 => ?_
      refine (parsebacks_complete line stop isAmp n cmd rest1).bind fun s2 rest2 => ?_
      obtain ⟨s3, rest3, eq⟩ := rest2.accept_yes line (by decide) isSemi _ _
      rw [eq]
      exact (ihLine n rest3 follows).bind fun s4 rest4 => .inr ⟨s4, rfl, rest4⟩
  | @single ts cmd _ ih =>
    intro n s post rest follows
    cases n with
    | zero => exact .inl (parse_zero ..)
    | succ n =>
      rw [parse, parsepipe_succ]
      refine (ih n rest (follows.mono (by decide))).bind fun s1 rest1 => ?_
      obtain ⟨s2, rest2, eq⟩ := rest1.accept_no line (c := ch '|') (by decide)
        (follows.starts_false (by decide)) _ _
      exact .inr ⟨s2, eq, rest2⟩
  | @pipe ts ts' bar left right _ isBar _ ihExec ihPipe =>
    intro n s post rest follows
    cases n with
    | zero => exact .inl (parse_zero ..)
    | succ n =>
      rw [append_assoc] at rest
      rw [parse, parsepipe_succ]
      refine (ihExec n rest (follows_of_ret isBar (by decide))).bind
        fun s1 rest1 => ?_
      obtain ⟨s2, rest2, eq⟩ := rest1.accept_yes line (by decide) isBar _ _
      rw [eq]
      exact (ihPipe n rest2 follows).bind fun s3 rest3 => .inr ⟨s3, rfl, rest3⟩
  | @block opens closes ts ts' rs cmd isOpen _ isClose redirs ih =>
    intro n s post rest follows
    cases n with
    | zero => exact .inl (parse_zero ..)
    | succ n =>
      replace rest : Rest buf es s (opens :: (ts ++ closes :: (ts' ++ post))) := by
        rwa [append_assoc] at rest
      obtain ⟨s1, hp, rest1⟩ := rest.peek line [ch '('] (by decide)
      rw [(starts_single (by decide)).mpr isOpen] at hp
      rw [parse, parseexec_succ, hp, if_pos rfl]
      cases n with
      | zero => exact .inl (by rw [parseblock])
      | succ n =>
        rw [parseblock_succ]
        obtain ⟨s2, rest2, eq⟩ := rest1.accept_yes line (by decide) isOpen _ _
        rw [eq]
        refine (ih n rest2 (follows_of_ret isClose (by decide))).bind
          fun s3 rest3 => ?_
        obtain ⟨s4, rest4, eq⟩ := rest3.accept_yes line (by decide) isClose
          (parseredirs buf es n cmd) _
        rw [eq]
        exact redirs.complete line (follows.starts_false (by decide)) n cmd rest4
  | @exec ts ts' rs rs' argv redirs args few =>
    intro n s post rest follows
    cases n with
    | zero => exact .inl (parse_zero ..)
    | succ n =>
      have notBlock : starts [ch '('] (ts ++ (ts' ++ post)) = false :=
        redirs.starts_paren (args.starts_false (by decide) (follows.starts_false (by decide)))
      rw [append_assoc] at rest
      obtain ⟨s1, hp, rest1⟩ := rest.peek line [ch '('] (by decide)
      rw [notBlock] at hp
      rw [parse, parseexec_succ, hp, if_neg (by rintro ⟨⟩)]
      have stop : starts [ch '<', ch '>'] (ts' ++ post) = false :=
        args.starts_false (by decide) (follows.starts_false (by decide))
      refine (redirs.complete line stop n (.exec []) rest1).bind fun s2 rest2 => ?_
      exact args.complete line follows n [] rs few rest2

end Complete

end Xv6.Sh
