import Xv6.Sh.Parser

/-! The tokens of a line: the sequence that `gettoken` returns from a position on, and what `peek` and
`gettoken` do in terms of it. -/

namespace Xv6.Sh

section

variable (buf : List UInt8) (es : Nat)

/-- At most `n` tokens from `s` on. -/
def tokensFrom : Nat → Nat → List Token
  | 0, _ => []
  | n + 1, s =>
    let (t, s) := gettoken buf es s
    if t.ret = 0 then [] else t :: tokensFrom n s

def tokens (s : Nat) : List Token := tokensFrom buf es (es - s) s

/-- The line ends at its first NUL. -/
structure Terminated : Prop where
  nul : buf.getD es 0 = 0
  clean : ∀ i < es, buf.getD i 0 ≠ 0

end

variable {buf : List UInt8} {es s : Nat} {p : UInt8 → Bool}

section Skip

theorem scan_le : ∀ (n s : Nat), scan buf p n s ≤ s + n
  | 0, s => le_rfl
  | n + 1, s => by
    unfold scan
    split
    · have := scan_le n (s + 1)
      omega
    · omega

theorem le_scan : ∀ (n s : Nat), s ≤ scan buf p n s
  | 0, s => le_rfl
  | n + 1, s => by
    unfold scan
    split
    · have := le_scan n (s + 1)
      omega
    · exact le_rfl

theorem scan_before : ∀ (n s : Nat) {i : Nat}, s ≤ i → i < scan buf p n s →
    p (buf.getD i 0) = true
  | 0, s, i, low, high => by
    rw [scan] at high
    omega
  | n + 1, s, i, low, high => by
    unfold scan at high
    split at high
    next here =>
      rcases Nat.eq_or_lt_of_le low with rfl | low
      · exact here
      · exact scan_before n (s + 1) low high
    next => omega

theorem scan_at : ∀ (n s : Nat), scan buf p n s < s + n → p (buf.getD (scan buf p n s) 0) = false
  | 0, s, high => by
    rw [scan] at high
    omega
  | n + 1, s, high => by
    unfold scan at high ⊢
    split at high
    next here =>
      rw [if_pos here]
      exact scan_at n (s + 1) (by omega)
    next stop =>
      rw [if_neg stop]
      exact Bool.eq_false_iff.mpr stop

theorem le_skip : s ≤ skip buf es p s := le_scan _ _

theorem skip_le (h : s ≤ es) : skip buf es p s ≤ es := by
  have bound : scan buf p (es - s) s ≤ s + (es - s) := scan_le _ _
  unfold skip
  omega

theorem skip_before {i : Nat} (low : s ≤ i) (high : i < skip buf es p s) :
    p (buf.getD i 0) = true := scan_before _ _ low high

theorem skip_at (h : skip buf es p s < es) : p (buf.getD (skip buf es p s) 0) = false := by
  refine scan_at _ _ ?_
  have low : s ≤ skip buf es p s := le_skip
  unfold skip at h low
  omega

theorem skip_eq (h : s < es → p (buf.getD s 0) = false) : skip buf es p s = s := by
  by_contra ne
  have low : s ≤ skip buf es p s := le_skip
  have lt : s < skip buf es p s := by omega
  have here : p (buf.getD s 0) = true := skip_before le_rfl lt
  by_cases inside : s < es
  · rw [h inside] at here
    cases here
  · unfold skip at lt
    rw [show es - s = 0 by omega, scan] at lt
    omega

theorem skip_skip : skip buf es p (skip buf es p s) = skip buf es p s :=
  skip_eq fun lt => skip_at lt

end Skip

section Lexeme

/-- The characters of `symbols`, except that `>>` is one token. -/
def Token.first (t : Token) : UInt8 := if t.ret = ch '+' then ch '>' else t.ret

/-- What the token at a position that is not a blank is. -/
structure Lexes (buf : List UInt8) (es s : Nat) (t : Token) : Prop where
  q : t.q = s
  less : s < t.eq
  bound : t.eq ≤ es
  ret : t.ret ≠ 0
  symbol : buf.getD s 0 ∈ symbols → t.first = buf.getD s 0
  notSymbol : buf.getD s 0 ∉ symbols → t.first = ch 'a'
  word : t.ret = ch 'a' → (∀ i, t.q ≤ i → i < t.eq → isWord (buf.getD i 0) = true) ∧
    (t.eq < es → isWord (buf.getD t.eq 0) = false)

theorem lexeme_end (line : Terminated buf es) : lexeme buf es es = ⟨0, es, es⟩ := by
  unfold lexeme
  rw [line.nul, if_pos rfl]

theorem Lexes.ofSymbol {ret : UInt8} {e : Nat} (mem : buf.getD s 0 ∈ symbols) (less : s < e)
    (bound : e ≤ es) (nonzero : ret ≠ 0) (notA : ret ≠ ch 'a')
    (first : (if ret = ch '+' then ch '>' else ret) = buf.getD s 0) :
    Lexes buf es s ⟨ret, s, e⟩ where
  q := rfl
  less := less
  bound := bound
  ret := nonzero
  symbol _ := first
  notSymbol out := absurd mem out
  word isA := absurd isA notA

theorem Lexes.ofWord (lt : s < es) (here : isWord (buf.getD s 0) = true) :
    Lexes buf es s ⟨ch 'a', s, skip buf es isWord s⟩ := by
  have low : s ≤ skip buf es isWord s := le_skip
  have moved : s ≠ skip buf es isWord s := by
    intro eq
    have stop : isWord (buf.getD (skip buf es isWord s) 0) = false :=
      skip_at (by rwa [← eq])
    rw [← eq, here] at stop
    cases stop
  have notMem : buf.getD s 0 ∉ symbols := by
    have out := (Bool.and_eq_true _ _ ▸ here).2
    simpa using out
  have nonzero : ch 'a' ≠ 0 := by decide
  exact ⟨rfl, lt_of_le_of_ne low moved, skip_le lt.le, nonzero, fun mem => absurd mem notMem,
    fun _ => rfl, fun _ => ⟨fun i low high => skip_before low high, skip_at⟩⟩

theorem lexeme_lexes (line : Terminated buf es) (lt : s < es)
    (ink : isSpace (buf.getD s 0) = false) : Lexes buf es s (lexeme buf es s) := by
  have nonzero := line.clean s lt
  unfold lexeme
  rw [if_neg nonzero]
  split
  next sym =>
    have mem : buf.getD s 0 ∈ symbols :=
      (show [ch '|', ch '(', ch ')', ch ';', ch '&', ch '<'] ⊆ symbols by decide) sym
    have notPlus : buf.getD s 0 ≠ ch '+' := fun eq => absurd (eq ▸ sym) (by decide)
    have notA : buf.getD s 0 ≠ ch 'a' := fun eq => absurd (eq ▸ sym) (by decide)
    exact .ofSymbol mem (Nat.lt_succ_self s) lt nonzero notA (if_neg notPlus)
  next notSym =>
    split
    next gt =>
      have mem : buf.getD s 0 ∈ symbols := by
        rw [gt]
        decide
      split
      next gtgt =>
        have notNul : ch '>' ≠ 0 := by decide
        have next : s + 1 ≠ es := by
          rintro rfl
          exact notNul (gtgt.symm.trans line.nul)
        exact .ofSymbol mem (by omega) (by omega) (by decide) (by decide) gt.symm
      next =>
        refine .ofSymbol mem (Nat.lt_succ_self s) lt nonzero ?_ ?_
        · rw [gt]
          decide
        · rw [gt]
          decide
    next notGt =>
      have notMem : buf.getD s 0 ∉ symbols := by
        revert notSym notGt
        simp only [List.mem_cons, List.not_mem_nil, or_false, symbols]
        tauto
      refine .ofWord lt ?_
      rw [isWord, Bool.and_eq_true, Bool.not_eq_true']
      exact ⟨ink, by simpa using notMem⟩

end Lexeme

/-- From `s` on the tokens `ts` follow. -/
structure Rest (buf : List UInt8) (es s : Nat) (ts : List Token) : Prop where
  bound : s ≤ es
  tokens : tokens buf es s = ts

section Tokens

section

variable (line : Terminated buf es)

include line

theorem gettoken_end (at_ : skip buf es isSpace s = es) :
    gettoken buf es s = (⟨0, es, es⟩, es) := by
  unfold gettoken
  rw [at_, lexeme_end line]
  dsimp only
  rw [skip_eq fun lt => absurd lt (lt_irrefl es)]

theorem gettoken_lexes (lt : skip buf es isSpace s < es) :
    Lexes buf es (skip buf es isSpace s) (gettoken buf es s).1 :=
  lexeme_lexes line lt (skip_at lt)

theorem gettoken_bound (lt : skip buf es isSpace s < es) :
    s < (gettoken buf es s).2 ∧ (gettoken buf es s).2 ≤ es := by
  have lexes := gettoken_lexes line lt
  have low : s ≤ skip buf es isSpace s := le_skip
  have less := lexes.less
  have after : (gettoken buf es s).1.eq ≤ (gettoken buf es s).2 := le_skip
  exact ⟨by omega, skip_le lexes.bound⟩

theorem tokensFrom_eq : ∀ (n s : Nat), s ≤ es → es - s ≤ n →
    tokensFrom buf es n s = tokens buf es s := by
  -- by induction on the distance to the end: every token moves the position
  suffices h : ∀ (d n s : Nat), s ≤ es → es - s = d → d ≤ n →
      tokensFrom buf es n s = tokensFrom buf es d s from
    fun n s bound enough => h _ n s bound rfl enough
  intro d
  induction d using Nat.strong_induction_on with
  | _ d ih =>
    intro n s bound dist enough
    rcases Nat.lt_or_ge (skip buf es isSpace s) es with lt | ge
    · obtain ⟨moves, inside⟩ := gettoken_bound line lt
      obtain ⟨n, rfl⟩ := Nat.exists_eq_succ_of_ne_zero (show n ≠ 0 by omega)
      obtain ⟨d, rfl⟩ := Nat.exists_eq_succ_of_ne_zero (show d ≠ 0 by omega)
      unfold tokensFrom
      dsimp only
      rw [if_neg (gettoken_lexes line lt).ret, if_neg (gettoken_lexes line lt).ret,
        ih _ (by omega) n _ inside rfl (by omega), ih _ (by omega) d _ inside rfl (by omega)]
    · have at_ : skip buf es isSpace s = es := le_antisymm (skip_le bound) ge
      have none (m : Nat) : tokensFrom buf es m s = [] := by
        cases m with
        | zero => rfl
        | succ m =>
          unfold tokensFrom
          rw [gettoken_end line at_]
          rfl
      rw [none, none]

theorem tokens_nil (at_ : skip buf es isSpace s = es) :
    tokens buf es s = [] := by
  unfold tokens
  cases es - s with
  | zero => rfl
  | succ m =>
    unfold tokensFrom
    rw [gettoken_end line at_]
    rfl

theorem tokens_cons (lt : skip buf es isSpace s < es) :
    tokens buf es s = (gettoken buf es s).1 :: tokens buf es (gettoken buf es s).2 := by
  obtain ⟨moves, inside⟩ := gettoken_bound line lt
  obtain ⟨m, hm⟩ := Nat.exists_eq_succ_of_ne_zero (show es - s ≠ 0 by omega)
  rw [tokens, hm]
  unfold tokensFrom
  dsimp only
  rw [if_neg (gettoken_lexes line lt).ret, tokensFrom_eq line m _ inside (by omega)]

end

theorem gettoken_skip : gettoken buf es (skip buf es isSpace s) = gettoken buf es s := by
  unfold gettoken
  rw [skip_skip]

theorem tokens_skip (line : Terminated buf es) (bound : s ≤ es) :
    tokens buf es (skip buf es isSpace s) = tokens buf es s := by
  rcases Nat.lt_or_ge (skip buf es isSpace s) es with lt | ge
  · rw [tokens_cons line lt, tokens_cons line (by rwa [skip_skip]),
      gettoken_skip]
  · have at_ : skip buf es isSpace s = es := le_antisymm (skip_le bound) ge
    rw [tokens_nil line at_, tokens_nil line (by rwa [skip_skip])]

variable {ts : List Token} {t : Token}

/-- Whether the next token starts with one of the characters. -/
def starts (toks : List UInt8) : List Token → Bool
  | [] => false
  | t :: _ => toks.contains t.first

theorem Rest.peek (line : Terminated buf es) (rest : Rest buf es s ts) (toks : List UInt8)
    (sub : toks ⊆ symbols) :
    ∃ s', peek buf es s toks = (starts toks ts, s') ∧ Rest buf es s' ts := by
  refine ⟨skip buf es isSpace s, Prod.ext ?_ rfl, skip_le rest.bound,
    (tokens_skip line rest.bound).trans rest.tokens⟩
  rcases Nat.lt_or_ge (skip buf es isSpace s) es with lt | ge
  · have lexes := gettoken_lexes line lt
    have nonzero := line.clean _ lt
    rw [← rest.tokens, tokens_cons line lt]
    show (decide (_ ≠ 0) && toks.contains _) = toks.contains _
    rw [decide_eq_true nonzero, Bool.true_and]
    by_cases mem : buf.getD (skip buf es isSpace s) 0 ∈ symbols
    · rw [lexes.symbol mem]
    · have out : ∀ c, c ∉ symbols → toks.contains c = false := by
        intro c hc
        simpa using fun hm => hc (sub hm)
      rw [out _ mem, lexes.notSymbol mem, out _ (by decide)]
  · have at_ : skip buf es isSpace s = es := le_antisymm (skip_le rest.bound) ge
    rw [← rest.tokens, tokens_nil line at_]
    show (decide (_ ≠ 0) && toks.contains _) = false
    rw [at_, line.nul]
    rfl

theorem Rest.gettoken_cons (line : Terminated buf es) (rest : Rest buf es s (t :: ts)) :
    ∃ s', gettoken buf es s = (t, s') ∧ Rest buf es s' ts ∧ t.ret ≠ 0 := by
  have lt : skip buf es isSpace s < es := by
    by_contra ge
    have at_ : skip buf es isSpace s = es :=
      le_antisymm (skip_le rest.bound) (Nat.le_of_not_lt ge)
    have := rest.tokens
    rw [tokens_nil line at_] at this
    cases this
  have split := rest.tokens
  rw [tokens_cons line lt] at split
  obtain ⟨head, tail⟩ := List.cons.inj split
  have lexes := gettoken_lexes line lt
  exact ⟨_, Prod.ext head rfl, ⟨(gettoken_bound line lt).2, tail⟩, by rw [← head]; exact lexes.ret⟩

theorem Rest.nil_iff (line : Terminated buf es) (rest : Rest buf es s ts) :
    ts = [] ↔ skip buf es isSpace s = es := by
  rw [← rest.tokens]
  constructor
  · intro none
    by_contra ne
    have lt : skip buf es isSpace s < es := lt_of_le_of_ne (skip_le rest.bound) ne
    rw [tokens_cons line lt] at none
    cases none
  · exact tokens_nil line

theorem Rest.gettoken_nil (line : Terminated buf es) (rest : Rest buf es s []) :
    ∃ t s', gettoken buf es s = (t, s') ∧ Rest buf es s' [] ∧ t.ret = 0 :=
  ⟨_, _, gettoken_end line ((rest.nil_iff line).mp rfl),
    ⟨le_rfl, tokens_nil line (skip_eq fun lt => absurd lt (lt_irrefl es))⟩, rfl⟩

theorem tokensFrom_length : ∀ (n s : Nat), (tokensFrom buf es n s).length ≤ n
  | 0, _ => le_rfl
  | n + 1, s => by
    unfold tokensFrom
    dsimp only
    split
    · exact Nat.zero_le _
    · exact Nat.succ_le_succ (tokensFrom_length n _)

/-- A word among the tokens is a piece of the line without blanks, symbols and NULs, and what
stands after it is none of its kind. -/
theorem mem_tokens (line : Terminated buf es) (bound : s ≤ es) (mem : t ∈ tokens buf es s) :
    ∃ s', Lexes buf es s' t := by
  induction d : es - s using Nat.strong_induction_on generalizing s with
  | _ d ih =>
    rcases Nat.lt_or_ge (skip buf es isSpace s) es with lt | ge
    · rw [tokens_cons line lt] at mem
      obtain ⟨moves, inside⟩ := gettoken_bound line lt
      rcases List.mem_cons.mp mem with rfl | mem
      · exact ⟨_, gettoken_lexes line lt⟩
      · exact ih _ (by omega) inside mem rfl
    · rw [tokens_nil line (le_antisymm (skip_le bound) ge)] at mem
      cases mem

end Tokens

end Xv6.Sh
