import Mathlib

/-! The parser of the shell. A pointer into the line is an index, and `es` is the index of its NUL.
The procedures and their loops take a fuel. -/

namespace Xv6.Sh

def ch (c : Char) : UInt8 := UInt8.ofNat c.toNat

def maxArgs : Nat := 10

/-- `O_RDONLY`, `O_WRONLY`, `O_CREATE` and `O_TRUNC`. -/
def oRdonly : Nat := 0x000

def oWronly : Nat := 0x001

def oCreate : Nat := 0x200

def oTrunc : Nat := 0x400

def whitespace : List UInt8 := [0x20, 0x09, 0x0d, 0x0a, 0x0b]

def symbols : List UInt8 := [ch '<', ch '|', ch '>', ch '&', ch ';', ch '(', ch ')']

def isSpace (c : UInt8) : Bool := whitespace.contains c

def isWord (c : UInt8) : Bool := !whitespace.contains c && !symbols.contains c

/-- A piece of the line, as `argv[i]` and `eargv[i]`, or `file` and `efile`. -/
structure Span where
  q : Nat
  eq : Nat
  deriving DecidableEq, Repr

/-- The fields of `struct redircmd` without its command. -/
structure Redir where
  file : Span
  mode : Nat
  fd : Nat
  deriving DecidableEq, Repr

/-- `struct cmd`.  The arrays of an `EXEC` node end before their first null pointer. -/
inductive Cmd
  | exec (argv : List Span)
  | redir (cmd : Cmd) (r : Redir)
  | pipe (left right : Cmd)
  | list (left right : Cmd)
  | back (cmd : Cmd)
  deriving DecidableEq, Repr

/-- How parsing stops without a tree: a `panic`, printed leftovers, or the end of the fuel. -/
inductive Stop
  | panic (msg : String)
  | leftovers (s : List UInt8)
  | fuel
  deriving DecidableEq, Repr

/-- What `gettoken` returns, with its `q` and `eq`. -/
structure Token where
  ret : UInt8
  q : Nat
  eq : Nat
  deriving DecidableEq, Repr

def Token.span (t : Token) : Span := ⟨t.q, t.eq⟩

/-- The string at `s`. -/
def cstr (buf : List UInt8) (s : Nat) : List UInt8 := (buf.drop s).takeWhile (· ≠ 0)

def strlen (buf : List UInt8) : Nat := (cstr buf 0).length

section

variable (buf : List UInt8) (es : Nat)

/-- At most `n` passes of `while(p(*s)) s++`. -/
def scan (p : UInt8 → Bool) : Nat → Nat → Nat
  | 0, s => s
  | n + 1, s => if p (buf.getD s 0) then scan p n (s + 1) else s

/-- `while(s < es && p(*s)) s++`. -/
def skip (p : UInt8 → Bool) (s : Nat) : Nat := scan buf p (es - s) s

/-- The `switch` of `gettoken`: the token at `s`, which is not a blank. -/
def lexeme (s : Nat) : Token :=
  let c := buf.getD s 0
  if c = 0 then ⟨c, s, s⟩
  else if c ∈ [ch '|', ch '(', ch ')', ch ';', ch '&', ch '<'] then ⟨c, s, s + 1⟩
  else if c = ch '>' then
    if buf.getD (s + 1) 0 = ch '>' then ⟨ch '+', s, s + 2⟩ else ⟨c, s, s + 1⟩
  else ⟨ch 'a', s, skip buf es isWord s⟩

/-- `gettoken`, with the new `*ps`. -/
def gettoken (s : Nat) : Token × Nat :=
  let t := lexeme buf es (skip buf es isSpace s)
  (t, skip buf es isSpace t.eq)

/-- `peek`, with the new `*ps`. -/
def peek (s : Nat) (toks : List UInt8) : Bool × Nat :=
  let s := skip buf es isSpace s
  let c := buf.getD s 0
  (c ≠ 0 && toks.contains c, s)

/-- The loop of `parseredirs`. -/
def parseredirs : Nat → Cmd → Nat → Except Stop (Cmd × Nat)
  | 0, _, _ => .error .fuel
  | n + 1, cmd, s =>
    let (more, s) := peek buf es s [ch '<', ch '>']
    if more then
      let (tok, s) := gettoken buf es s
      let (word, s) := gettoken buf es s
      if word.ret ≠ ch 'a' then .error (.panic "missing file for redirection")
      else if tok.ret = ch '<' then parseredirs n (.redir cmd ⟨word.span, oRdonly, 0⟩) s
      else if tok.ret = ch '>' then
        parseredirs n (.redir cmd ⟨word.span, oWronly ||| oCreate ||| oTrunc, 1⟩) s
      else if tok.ret = ch '+' then
        parseredirs n (.redir cmd ⟨word.span, oWronly ||| oCreate, 1⟩) s
      else parseredirs n cmd s
    else .ok (cmd, s)

/-- `cmd->argv[argc] = q; cmd->eargv[argc] = eq` in the `EXEC` node under the redirections that
`parseexec` has put around it. -/
def Cmd.addArg : Cmd → Span → Cmd
  | .exec argv, a => .exec (argv ++ [a])
  | .redir cmd r, a => .redir (cmd.addArg a) r
  | cmd, _ => cmd

/-- The loop of `parseexec`. -/
def parseargs : Nat → Cmd → Nat → Nat → Except Stop (Cmd × Nat)
  | 0, _, _, _ => .error .fuel
  | n + 1, ret, argc, s =>
    let (stop, s) := peek buf es s [ch '|', ch ')', ch '&', ch ';']
    if stop then .ok (ret, s)
    else
      let (tok, s) := gettoken buf es s
      if tok.ret = 0 then .ok (ret, s)
      else if tok.ret ≠ ch 'a' then .error (.panic "syntax")
      else if argc + 1 ≥ maxArgs then .error (.panic "too many args")
      else do
        let (ret, s) ← parseredirs buf es n (ret.addArg tok.span) s
        parseargs n ret (argc + 1) s

/-- The loop of `parseline`. -/
def parsebacks : Nat → Cmd → Nat → Except Stop (Cmd × Nat)
  | 0, _, _ => .error .fuel
  | n + 1, cmd, s =>
    let (more, s) := peek buf es s [ch '&']
    if more then parsebacks n (.back cmd) (gettoken buf es s).2 else .ok (cmd, s)

mutual

def parseline : Nat → Nat → Except Stop (Cmd × Nat)
  | 0, _ => .error .fuel
  | n + 1, s => do
    let (cmd, s) ← parsepipe n s
    let (cmd, s) ← parsebacks buf es n cmd s
    let (more, s) := peek buf es s [ch ';']
    if more then
      let (right, s) ← parseline n (gettoken buf es s).2
      .ok (.list cmd right, s)
    else .ok (cmd, s)

def parsepipe : Nat → Nat → Except Stop (Cmd × Nat)
  | 0, _ => .error .fuel
  | n + 1, s => do
    let (cmd, s) ← parseexec n s
    let (more, s) := peek buf es s [ch '|']
    if more then
      let (right, s) ← parsepipe n (gettoken buf es s).2
      .ok (.pipe cmd right, s)
    else .ok (cmd, s)

def parseblock : Nat → Nat → Except Stop (Cmd × Nat)
  | 0, _ => .error .fuel
  | n + 1, s =>
    let (opened, s) := peek buf es s [ch '(']
    if opened then do
      let (cmd, s) ← parseline n (gettoken buf es s).2
      let (closed, s) := peek buf es s [ch ')']
      if closed then parseredirs buf es n cmd (gettoken buf es s).2
      else .error (.panic "syntax - missing )")
    else .error (.panic "parseblock")

def parseexec : Nat → Nat → Except Stop (Cmd × Nat)
  | 0, _ => .error .fuel
  | n + 1, s =>
    let (block, s) := peek buf es s [ch '(']
    if block then parseblock n s
    else do
      let (ret, s) ← parseredirs buf es n (.exec []) s
      parseargs buf es n ret 0 s

end

end

def terminate (buf : List UInt8) (p : Nat) : List UInt8 := buf.set p 0

def nulterminate : Cmd → List UInt8 → List UInt8
  | .exec argv, buf => argv.foldl (fun buf a => terminate buf a.eq) buf
  | .redir cmd r, buf => terminate (nulterminate cmd buf) r.file.eq
  | .pipe left right, buf => nulterminate right (nulterminate left buf)
  | .list left right, buf => nulterminate right (nulterminate left buf)
  | .back cmd, buf => nulterminate cmd buf

/-- `parsecmd`, with the line after `nulterminate`. -/
def parsecmd (fuel : Nat) (buf : List UInt8) : Except Stop (Cmd × List UInt8) := do
  let es := strlen buf
  let (cmd, s) ← parseline buf es fuel 0
  let (_, s) := peek buf es s []
  if s ≠ es then .error (.leftovers (cstr buf s)) else .ok (cmd, nulterminate cmd buf)

end Xv6.Sh
