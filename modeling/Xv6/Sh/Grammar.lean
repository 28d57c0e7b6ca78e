import Xv6.Sh.Lexer

/-! The grammar of the shell,

    line  := pipe '&'* [';' line]
    pipe  := exec ['|' pipe]
    exec  := '(' line ')' redir* | redir* (word redir*)*
    redir := ('<' | '>' | '>>') word

as derivations with their trees.  The parser finds the derivation of the tokens that it reads, finds
it whenever there is one, and stops. -/

namespace Xv6.Sh

/-- The operators of redirections, with the mode and the descriptor that they stand for. -/
inductive RedirOp : UInt8 → Nat → Nat → Prop
  | input : RedirOp (ch '<') oRdonly 0
  | output : RedirOp (ch '>') (oWronly ||| oCreate ||| oTrunc) 1
  | append : RedirOp (ch '+') (oWronly ||| oCreate) 1

/-- `redir*`. -/
inductive Redirs : List Token → List Redir → Prop
  | nil : Redirs [] []
  | cons {op word : Token} {mode fd : Nat} {ts : List Token} {rs : List Redir} :
      RedirOp op.ret mode fd → word.ret = ch 'a' → Redirs ts rs →
      Redirs (op :: word :: ts) (⟨word.span, mode, fd⟩ :: rs)

/-- `(word redir*)*`. -/
inductive Args : List Token → List Redir → List Span → Prop
  | nil : Args [] [] []
  | cons {word : Token} {ts ts' : List Token} {rs rs' : List Redir} {argv : List Span} :
      word.ret = ch 'a' → Redirs ts rs → Args ts' rs' argv →
      Args (word :: ts ++ ts') (rs ++ rs') (word.span :: argv)

inductive Nonterminal
  | line
  | pipe
  | exec
  deriving DecidableEq, Repr

/-- Redirections around a command, the first of them innermost. -/
def Cmd.redirs (cmd : Cmd) (rs : List Redir) : Cmd := rs.foldl .redir cmd

/-- `Derives x ts cmd`: the tokens `ts` derive from `x`, and `cmd` is the tree of the derivation. -/
inductive Derives : Nonterminal → List Token → Cmd → Prop
  | line {ts amps : List Token} {cmd : Cmd} :
      Derives .pipe ts cmd → (∀ t ∈ amps, t.ret = ch '&') →
      Derives .line (ts ++ amps) (Cmd.back^[amps.length] cmd)
  | list {ts amps ts' : List Token} {semi : Token} {cmd right : Cmd} :
      Derives .pipe ts cmd → (∀ t ∈ amps, t.ret = ch '&') → semi.ret = ch ';' →
      Derives .line ts' right →
      Derives .line (ts ++ amps ++ semi :: ts') (.list (Cmd.back^[amps.length] cmd) right)
  | single {ts : List Token} {cmd : Cmd} : Derives .exec ts cmd → Derives .pipe ts cmd
  | pipe {ts ts' : List Token} {bar : Token} {left right : Cmd} :
      Derives .exec ts left → bar.ret = ch '|' → Derives .pipe ts' right →
      Derives .pipe (ts ++ bar :: ts') (.pipe left right)
  | block {opens closes : Token} {ts ts' : List Token} {rs : List Redir} {cmd : Cmd} :
      opens.ret = ch '(' → Derives .line ts cmd → closes.ret = ch ')' → Redirs ts' rs →
      Derives .exec (opens :: ts ++ closes :: ts') (cmd.redirs rs)
  | exec {ts ts' : List Token} {rs rs' : List Redir} {argv : List Span} :
      Redirs ts rs → Args ts' rs' argv → argv.length < maxArgs →
      Derives .exec (ts ++ ts') ((Cmd.exec argv).redirs (rs ++ rs'))

section Trees

theorem Cmd.redirs_append (cmd : Cmd) (rs rs' : List Redir) :
    cmd.redirs (rs ++ rs') = (cmd.redirs rs).redirs rs' := List.foldl_append

theorem Cmd.addArg_redirs (argv : List Span) (a : Span) (rs : List Redir) :
    ((Cmd.exec argv).redirs rs).addArg a = (Cmd.exec (argv ++ [a])).redirs rs := by
  suffices h : ∀ cmd : Cmd, (cmd.redirs rs).addArg a = (cmd.addArg a).redirs rs from h _
  induction rs with
  | nil => exact fun _ => rfl
  | cons r rs ih => exact fun cmd => ih (.redir cmd r)

end Trees

section Symbols

variable {t : Token} {ts : List Token} {toks : List UInt8}

theorem starts_cons : starts toks (t :: ts) = toks.contains t.first := rfl

theorem Token.first_eq_iff (plain : c ≠ ch '>' ∧ c ≠ ch '+') : t.first = c ↔ t.ret = c := by
  unfold Token.first
  split
  next plus =>
    rw [plus]
    exact ⟨fun eq => absurd eq.symm plain.1, fun eq => absurd eq.symm plain.2⟩
  next => rfl

theorem starts_iff (notGt : ch '>' ∉ toks) (notPlus : ch '+' ∉ toks) :
    starts toks (t :: ts) = true ↔ t.ret ∈ toks := by
  have plain : ∀ c ∈ toks, c ≠ ch '>' ∧ c ≠ ch '+' := fun c mem =>
    ⟨fun eq => notGt (eq ▸ mem), fun eq => notPlus (eq ▸ mem)⟩
  rw [starts_cons, List.contains_iff_mem]
  constructor
  · intro mem
    rwa [(Token.first_eq_iff (plain _ mem)).mp rfl]
  · intro mem
    rwa [(Token.first_eq_iff (plain _ mem)).mpr rfl]

theorem starts_single (plain : c ≠ ch '>' ∧ c ≠ ch '+') :
    starts [c] (t :: ts) = true ↔ t.ret = c := by
  have notIn {d : UInt8} (ne : c ≠ d) : d ∉ [c] := fun mem => ne (List.mem_singleton.mp mem).symm
  rw [starts_iff (notIn plain.1) (notIn plain.2), List.mem_singleton]

theorem starts_redir :
    starts [ch '<', ch '>'] (t :: ts) = true ↔ ∃ mode fd, RedirOp t.ret mode fd := by
  rw [starts_cons, List.contains_iff_mem]
  unfold Token.first
  constructor
  · intro mem
    split at mem
    next plus =>
      rw [plus]
      exact ⟨_, _, .append⟩
    next =>
      rcases List.mem_cons.mp mem with eq | mem
      · rw [eq]
        exact ⟨_, _, .input⟩
      · rw [List.mem_singleton.mp mem]
        exact ⟨_, _, .output⟩
  · rintro ⟨mode, fd, op⟩
    generalize t.ret = c at op ⊢
    cases op <;> decide

theorem starts_of_word (sub : toks ⊆ symbols) (word : t.ret = ch 'a') :
    starts toks (t :: ts) = false := by
  have first : t.first = ch 'a' := (Token.first_eq_iff (by decide)).mpr word
  rw [starts_cons, first]
  by_contra yes
  have mem : ch 'a' ∈ toks := List.contains_iff_mem.mp (Bool.not_eq_false _ ▸ yes)
  exact absurd (sub mem) (by decide)

end Symbols

section Redirs

variable {buf : List UInt8} {es s s' n : Nat} {cmd cmd' : Cmd} {ts post : List Token}

theorem parseredirs_op (line : Terminated buf es) (isOp : RedirOp op.ret mode fd)
    (isWord : word.ret = ch 'a') (rest : Rest buf es s (op :: word :: ts)) :
    ∃ s', Rest buf es s' ts ∧ parseredirs buf es (n + 1) cmd s =
      parseredirs buf es n (.redir cmd ⟨word.span, mode, fd⟩) s' := by
  obtain ⟨s1, hp, rest1⟩ := rest.peek line [ch '<', ch '>'] (by decide)
  obtain ⟨s2, hop, rest2, -⟩ := rest1.gettoken_cons line
  obtain ⟨s3, hword, rest3, -⟩ := rest2.gettoken_cons line
  refine ⟨s3, rest3, ?_⟩
  rw [starts_redir.mpr ⟨mode, fd, isOp⟩] at hp
  conv_lhs => unfold parseredirs
  rw [hp]
  dsimp only
  rw [if_pos rfl, hop]
  dsimp only
  rw [hword]
  dsimp only
  rw [if_neg (not_not.mpr isWord)]
  generalize op.ret = c at isOp
  cases isOp with
  | input => rw [if_pos rfl]
  | output => rw [if_neg (by decide), if_pos rfl]
  | append => rw [if_neg (by decide), if_neg (by decide), if_pos rfl]

theorem parseredirs_end (line : Terminated buf es) (rest : Rest buf es s ts)
    (stop : starts [ch '<', ch '>'] ts = false) :
    ∃ s', Rest buf es s' ts ∧ parseredirs buf es (n + 1) cmd s = .ok (cmd, s') := by
  obtain ⟨s1, hp, rest1⟩ := rest.peek line [ch '<', ch '>'] (by decide)
  refine ⟨s1, rest1, ?_⟩
  rw [stop] at hp
  unfold parseredirs
  rw [hp]
  rfl

theorem parseredirs_missing (line : Terminated buf es)
    (isOp : starts [ch '<', ch '>'] (op :: ts) = true) (rest : Rest buf es s (op :: ts))
    (missing : ∀ word ts', ts = word :: ts' → word.ret ≠ ch 'a') :
    parseredirs buf es (n + 1) cmd s = .error (.panic "missing file for redirection") := by
  obtain ⟨s1, hp, rest1⟩ := rest.peek line [ch '<', ch '>'] (by decide)
  obtain ⟨s2, hop, rest2, -⟩ := rest1.gettoken_cons line
  obtain ⟨t, s3, hword, notWord⟩ : ∃ t s3, gettoken buf es s2 = (t, s3) ∧ t.ret ≠ ch 'a' := by
    cases ts with
    | nil =>
      obtain ⟨t, s3, hword, -, zero⟩ := rest2.gettoken_nil line
      exact ⟨t, s3, hword, by rw [zero]; decide⟩
    | cons word ts' =>
      obtain ⟨s3, hword, -, -⟩ := rest2.gettoken_cons line
      exact ⟨word, s3, hword, missing word ts' rfl⟩
  rw [isOp] at hp
  unfold parseredirs
  rw [hp]
  dsimp only
  rw [if_pos rfl, hop]
  dsimp only
  rw [hword]
  exact if_pos notWord

end Redirs

section Loops

variable {buf : List UInt8} {es s s' n argc : Nat} {ret cmd : Cmd} {t : Token}
  {ts : List Token}

def closers : List UInt8 := [ch '|', ch ')', ch '&', ch ';']

section

variable (line : Terminated buf es)

include line

theorem parseargs_word (isWord : t.ret = ch 'a') (rest : Rest buf es s (t :: ts)) :
    ∃ s', Rest buf es s' ts ∧ parseargs buf es (n + 1) ret argc s =
      if argc + 1 ≥ maxArgs then .error (.panic "too many args")
      else parseredirs buf es n (ret.addArg t.span) s' >>= fun r =>
        parseargs buf es n r.1 (argc + 1) r.2 := by
  obtain ⟨s1, hp, rest1⟩ := rest.peek line closers (by decide)
  obtain ⟨s2, ht, rest2, nonzero⟩ := rest1.gettoken_cons line
  refine ⟨s2, rest2, ?_⟩
  rw [starts_of_word (by decide) isWord] at hp
  conv_lhs => unfold parseargs
  rw [show peek buf es s [ch '|', ch ')', ch '&', ch ';'] = (false, s1) from hp]
  dsimp only
  rw [if_neg nofun, ht]
  dsimp only
  rw [if_neg nonzero, if_neg (not_not.mpr isWord)]

theorem parseargs_end (rest : Rest buf es s ts) (stop : ts = [] ∨ starts closers ts = true) :
    ∃ s', Rest buf es s' ts ∧ parseargs buf es (n + 1) ret argc s = .ok (ret, s') := by
  obtain ⟨s1, hp, rest1⟩ := rest.peek line closers (by decide)
  unfold parseargs
  rw [show peek buf es s [ch '|', ch ')', ch '&', ch ';'] = (starts closers ts, s1) from hp]
  dsimp only
  rcases stop with rfl | stop
  · obtain ⟨t, s2, ht, rest2, zero⟩ := rest1.gettoken_nil line
    refine ⟨s2, rest2, ?_⟩
    rw [if_neg nofun, ht]
    exact if_pos zero
  · exact ⟨s1, rest1, if_pos stop⟩

theorem parseargs_panic (notWord : t.ret ≠ ch 'a') (rest : Rest buf es s (t :: ts))
    (go : starts closers (t :: ts) = false) :
    parseargs buf es (n + 1) ret argc s = .error (.panic "syntax") := by
  obtain ⟨s1, hp, rest1⟩ := rest.peek line closers (by decide)
  obtain ⟨s2, ht, -, nonzero⟩ := rest1.gettoken_cons line
  unfold parseargs
  rw [show peek buf es s [ch '|', ch ')', ch '&', ch ';'] = (false, s1) from go ▸ hp]
  dsimp only
  rw [if_neg nofun, ht]
  dsimp only
  rw [if_neg nonzero, if_pos notWord]

theorem parsebacks_amp (isAmp : t.ret = ch '&') (rest : Rest buf es s (t :: ts)) :
    ∃ s', Rest buf es s' ts ∧
      parsebacks buf es (n + 1) cmd s = parsebacks buf es n (.back cmd) s' := by
  obtain ⟨s1, hp, rest1⟩ := rest.peek line [ch '&'] (by decide)
  obtain ⟨s2, ht, rest2, -⟩ := rest1.gettoken_cons line
  refine ⟨s2, rest2, ?_⟩
  rw [(starts_single (by decide)).mpr isAmp] at hp
  conv_lhs => unfold parsebacks
  rw [hp]
  dsimp only
  rw [if_pos rfl, ht]

theorem parsebacks_end (rest : Rest buf es s ts) (stop : starts [ch '&'] ts = false) :
    ∃ s', Rest buf es s' ts ∧ parsebacks buf es (n + 1) cmd s = .ok (cmd, s') := by
  obtain ⟨s1, hp, rest1⟩ := rest.peek line [ch '&'] (by decide)
  refine ⟨s1, rest1, ?_⟩
  rw [stop] at hp
  unfold parsebacks
  rw [hp]
  rfl

end

end Loops

section Procedures

variable {buf : List UInt8} {es s n : Nat} {c : UInt8} {ts : List Token}

/-- `if(peek(ps, es, "c")) { gettoken(ps, es, 0, 0); yes } else no`. -/
def accept {β : Type} (buf : List UInt8) (es : Nat) (c : UInt8) (s : Nat) (yes no : Nat → β) : β :=
  if (peek buf es s [c]).1 then yes (gettoken buf es (peek buf es s [c]).2).2
  else no (peek buf es s [c]).2

/-- The symbols that are tokens by themselves. -/
def single : List UInt8 := [ch '|', ch '(', ch ')', ch ';', ch '&', ch '<']

theorem plain_of_single (mem : c ∈ single) : c ≠ ch '>' ∧ c ≠ ch '+' :=
  ⟨fun eq => absurd (eq ▸ mem) (by decide), fun eq => absurd (eq ▸ mem) (by decide)⟩

theorem Rest.accept {β : Type} (line : Terminated buf es) (rest : Rest buf es s ts)
    (mem : c ∈ single) (yes no : Nat → β) :
    (∃ t ts' s', ts = t :: ts' ∧ t.ret = c ∧ Rest buf es s' ts' ∧
      accept buf es c s yes no = yes s') ∨
    starts [c] ts = false ∧ ∃ s', Rest buf es s' ts ∧ accept buf es c s yes no = no s' := by
  have sym : c ∈ symbols := (show single ⊆ symbols by decide) mem
  obtain ⟨s1, hp, rest1⟩ := rest.peek line [c] (by simpa using sym)
  cases h : starts [c] ts with
  | false =>
    refine .inr ⟨rfl, s1, rest1, ?_⟩
    rw [Sh.accept, hp, h]
    rfl
  | true =>
    cases ts with
    | nil => cases h
    | cons t ts' =>
      obtain ⟨s2, ht, rest2, -⟩ := rest1.gettoken_cons line
      refine .inl ⟨t, ts', s2, rfl, (starts_single (plain_of_single mem)).mp h, rest2, ?_⟩
      rw [Sh.accept, hp, h, if_pos rfl, ht]

variable (buf es)

theorem parseline_succ : parseline buf es (n + 1) s =
    parsepipe buf es n s >>= fun r => parsebacks buf es n r.1 r.2 >>= fun r =>
      accept buf es (ch ';') r.2
        (fun s => parseline buf es n s >>= fun q => .ok (.list r.1 q.1, q.2))
        (fun s => .ok (r.1, s)) := by
  rw [parseline]
  rfl

theorem parsepipe_succ : parsepipe buf es (n + 1) s =
    parseexec buf es n s >>= fun r =>
      accept buf es (ch '|') r.2
        (fun s => parsepipe buf es n s >>= fun q => .ok (.pipe r.1 q.1, q.2))
        (fun s => .ok (r.1, s)) := by
  rw [parsepipe]
  rfl

theorem parseblock_succ : parseblock buf es (n + 1) s =
    accept buf es (ch '(') s
      (fun s => parseline buf es n s >>= fun r =>
        accept buf es (ch ')') r.2 (parseredirs buf es n r.1)
          fun _ => .error (.panic "syntax - missing )"))
      fun _ => .error (.panic "parseblock") := by
  rw [parseblock]
  rfl

theorem parseexec_succ : parseexec buf es (n + 1) s =
    if (peek buf es s [ch '(']).1 then parseblock buf es n (peek buf es s [ch '(']).2
    else parseredirs buf es n (.exec []) (peek buf es s [ch '(']).2 >>= fun r =>
      parseargs buf es n r.1 0 r.2 := by
  rw [parseexec]

def parse : Nonterminal → Nat → Nat → Except Stop (Cmd × Nat)
  | .line => parseline buf es
  | .pipe => parsepipe buf es
  | .exec => parseexec buf es

theorem parse_zero (x : Nonterminal) : parse buf es x 0 s = .error .fuel := by
  cases x with
  | line => rw [parse, parseline]
  | pipe => rw [parse, parsepipe]
  | exec => rw [parse, parseexec]

end Procedures

end Xv6.Sh
