import Xv6.ByteVec

/-!
# The tokens of a shell line

`gettoken` and `peek` of `sh.c` move a cursor over the line, and `tokens`
says what the tokens of a line are: symbols, and words that are maximal
runs of characters that are neither white space nor symbols. From a cursor
`s` on, `gettoken` reads off the tokens of the rest of the line
(`gettoken_spec`) and `peek` looks at the first of them (`peek_spec`).

A pointer into the line is an offset. The line is what precedes the NUL
that `es` points to, so the character at its end reads as none.
-/

namespace Xv6.Sh

open List

open ByteVec (Byte)

/-! ## The cursor -/

/-- `" \t\r\n\v"`. -/
def whitespace : List Byte := [0x20, 0x09, 0x0d, 0x0a, 0x0b]

/-- `"<|>&;()"`. -/
def symbols : List Byte := [0x3c, 0x7c, 0x3e, 0x26, 0x3b, 0x28, 0x29]

def strchr (s : List Byte) (c : Byte) : Bool := s.contains c

def isWord (c : Byte) : Bool := !strchr whitespace c && !strchr symbols c

inductive Sym where
  | bar
  | lparen
  | rparen
  | semi
  | amp
  | lt
  | gt
  /-- `>>` -/
  | gtgt
deriving DecidableEq

/-- The symbols that `gettoken` reads by their character alone. -/
def Sym.ofByte (c : Byte) : Option Sym :=
  if c = 0x7c then some .bar
  else if c = 0x28 then some .lparen
  else if c = 0x29 then some .rparen
  else if c = 0x3b then some .semi
  else if c = 0x26 then some .amp
  else if c = 0x3c then some .lt
  else none

/-- What `gettoken` returns. -/
inductive Ret where
  /-- 0 -/
  | nul
  /-- the character of the symbol, `'+'` for `>>` -/
  | sym (k : Sym)
  /-- `'a'` -/
  | word
deriving DecidableEq

/-- `while(s < es && p(*s)) s++`. -/
def skip (p : Byte → Bool) (line : List Byte) (s : Nat) : Nat :=
  s + ((line.drop s).takeWhile p).length

/-- What `gettoken` returns with `*ps`, `*q` and `*eq` set. -/
structure Got where
  ret : Ret
  q : Nat
  eq : Nat
  ps : Nat

/-- The `switch` of `gettoken`: its value and the end of the token. -/
def scan (line : List Byte) (q : Nat) : Ret × Nat :=
  match (line)[q]? with
  | none => (.nul, q)
  | some c =>
      match Sym.ofByte c with
      | some k => (.sym k, q + 1)
      | none =>
          if c = 0x3e then
            if (line)[q + 1]? = some 0x3e then (.sym .gtgt, q + 2) else (.sym .gt, q + 1)
          else (.word, skip isWord line q)

def gettoken (line : List Byte) (ps : Nat) : Got :=
  let q := skip (strchr whitespace) line ps
  let (ret, eq) := scan line q
  ⟨ret, q, eq, skip (strchr whitespace) line eq⟩

/-- What `peek` returns, and `*ps` after it. -/
def peek (line : List Byte) (ps : Nat) (toks : List Byte) : Bool × Nat :=
  let s := skip (strchr whitespace) line ps
  (match (line)[s]? with
    | none => false
    | some c => strchr toks c, s)

/-! ## The tokens of a line -/

inductive Tok where
  | sym (k : Sym)
  | word (w : List Byte)
deriving DecidableEq

def tokens (line : List Byte) : List Tok :=
  match line with
  | [] => []
  | c :: rest =>
      if strchr whitespace c then tokens rest
      else
        match Sym.ofByte c with
        | some k => .sym k :: tokens rest
        | none =>
            if c = 0x3e then
              if rest.head? = some 0x3e then .sym .gtgt :: tokens rest.tail
              else .sym .gt :: tokens rest
            else .word (c :: rest.takeWhile isWord) :: tokens (rest.dropWhile isWord)
termination_by line.length
decreasing_by
  all_goals simp only [length_cons]
  · omega
  · omega
  · grind
  · omega
  · grind [dropWhile_sublist]

theorem tokens_nil : tokens [] = [] := by rw [tokens]

variable {c : Byte} {line : List Byte} {s : Nat}

theorem tokens_cons (hws : strchr whitespace c = false) (rest : List Byte) :
    tokens (c :: rest) =
      match Sym.ofByte c with
      | some k => .sym k :: tokens rest
      | none =>
        if c = 0x3e then
          if rest.head? = some 0x3e then .sym .gtgt :: tokens rest.tail
          else .sym .gt :: tokens rest
        else .word (c :: rest.takeWhile isWord) :: tokens (rest.dropWhile isWord) := by
  rw [tokens, if_neg (by rw [hws]; exact Bool.false_ne_true)]

theorem tokens_dropWhile (line : List Byte) :
    tokens (line.dropWhile (strchr whitespace)) = tokens line := by
  induction line with
  | nil => rfl
  | cons c rest ih =>
    rw [dropWhile_cons]
    split
    case isTrue hc =>
      simp [ih, tokens, hc]
    case isFalse => rfl

/-- The tokens from a cursor on. -/
def tokensAt (line : List Byte) (s : Nat) : List Tok := tokens (line.drop s)

theorem drop_skip (p : Byte → Bool) (line : List Byte) (s : Nat) :
    line.drop (skip p line s) = (line.drop s).dropWhile p := by
  rw [skip, ← drop_drop]
  calc (line.drop s).drop ((line.drop s).takeWhile p).length
      = ((line.drop s).takeWhile p ++ (line.drop s).dropWhile p).drop
          ((line.drop s).takeWhile p).length := by rw [takeWhile_append_dropWhile]
    _ = (line.drop s).dropWhile p := drop_left

theorem tokensAt_skip (line : List Byte) (s : Nat) :
    tokensAt line (skip (strchr whitespace) line s) = tokensAt line s := by
  rw [tokensAt, drop_skip, tokens_dropWhile]
  rfl

theorem skip_le (p : Byte → Bool) (h : s ≤ line.length) : skip p line s ≤ line.length := by
  have hlen := (takeWhile_sublist p (l := line.drop s)).length_le
  rw [length_drop] at hlen
  unfold skip
  omega

/-- After the white space the line ends, or something else comes. -/
theorem drop_skip_cases (line : List Byte) (s : Nat) :
    line.drop (skip (strchr whitespace) line s) = [] ∨
    ∃ c rest, line.drop (skip (strchr whitespace) line s) = c :: rest ∧
      strchr whitespace c = false := by
  rw [drop_skip]
  cases h : (line.drop s).dropWhile (strchr whitespace) with
  | nil => exact .inl rfl
  | cons c rest =>
    refine .inr ⟨c, rest, rfl, ?_⟩
    have hne : (line.drop s).dropWhile (strchr whitespace) ≠ [] := by
      rw [h]
      exact cons_ne_nil c rest
    have hhead := head_dropWhile_not (strchr whitespace) hne
    simpa [h] using hhead

/-- The word `w` starts at `q` and ends at `eq`. -/
structure WordAt (line : List Byte) (q eq : Nat) (w : List Byte) : Prop where
  run : (line.drop q).takeWhile isWord = w
  end_eq : eq = q + w.length

/-- What `gettoken` has read where the tokens are these. -/
def Got.Reads (line : List Byte) (g : Got) : List Tok → Prop
  | [] => g.ret = .nul ∧ tokensAt line g.ps = []
  | .sym k :: ts => g.ret = .sym k ∧ tokensAt line g.ps = ts
  | .word w :: ts => g.ret = .word ∧ WordAt line g.q g.eq w ∧ tokensAt line g.ps = ts

theorem isWord_of_ofByte (hws : strchr whitespace c = false) (hsym : Sym.ofByte c = none)
    (hgt : c ≠ 0x3e) : isWord c = true := by
  have h : ∀ c : Byte, strchr whitespace c = false → Sym.ofByte c = none → c ≠ 0x3e →
      isWord c = true := by decide +kernel
  exact h c hws hsym hgt

theorem gettoken_spec (line : List Byte) (s : Nat) :
    (gettoken line s).Reads line (tokensAt line s) := by
  rw [← tokensAt_skip]
  unfold gettoken
  generalize hq : skip (strchr whitespace) line s = q
  have hcases := drop_skip_cases line s
  rw [hq] at hcases
  have hget : (line)[q]? = (line.drop q).head? := head?_drop.symm
  rcases hcases with hnil | ⟨c, rest, hcons, hws⟩
  · have hscan : scan line q = (.nul, q) := by
      rw [scan, hget, hnil]
      rfl
    dsimp only
    rw [hscan, show tokensAt line q = [] by rw [tokensAt, hnil, tokens_nil]]
    exact ⟨rfl, by rw [tokensAt_skip, tokensAt, hnil, tokens_nil]⟩
  · have hrest : line.drop (q + 1) = rest := by rw [← drop_drop, hcons]; rfl
    have hget' : (line)[q + 1]? = rest.head? := by rw [← head?_drop, hrest]
    have htoks : tokensAt line q = tokens (c :: rest) := by rw [tokensAt, hcons]
    dsimp only
    rw [htoks, tokens_cons hws, scan, hget, hcons]
    dsimp only [head?_cons]
    cases hsym : Sym.ofByte c with
    | some k => exact ⟨rfl, by rw [tokensAt_skip, tokensAt, hrest]⟩
    | none =>
      dsimp only
      by_cases hgt : c = 0x3e
      · rw [if_pos hgt, if_pos hgt, hget']
        by_cases hgt' : rest.head? = some 0x3e
        · rw [if_pos hgt', if_pos hgt']
          refine ⟨rfl, ?_⟩
          rw [tokensAt_skip, tokensAt, ← drop_drop (i := 1) (j := q + 1), hrest, drop_one]
        · rw [if_neg hgt', if_neg hgt']
          exact ⟨rfl, by rw [tokensAt_skip, tokensAt, hrest]⟩
      · rw [if_neg hgt, if_neg hgt]
        have hword := isWord_of_ofByte hws hsym hgt
        refine ⟨rfl, ⟨?_, ?_⟩, ?_⟩
        · simp_all
        · simp [skip, hcons, takeWhile_cons, hword]
        · rw [tokensAt_skip, tokensAt, drop_skip, hcons, dropWhile_cons, if_pos hword]

/-- The character a symbol starts with. -/
def Sym.byte : Sym → Byte
  | .bar => 0x7c
  | .lparen => 0x28
  | .rparen => 0x29
  | .semi => 0x3b
  | .amp => 0x26
  | .lt => 0x3c
  | .gt | .gtgt => 0x3e

/-- The first token is a symbol that starts with one of `toks`. -/
def starts (toks : List Byte) : List Tok → Bool
  | .sym k :: _ => strchr toks k.byte
  | _ => false

theorem byte_of_ofByte {k : Sym} (h : Sym.ofByte c = some k) : k.byte = c := by
  grind [Sym.ofByte, Sym.byte]

theorem peek_spec {toks : List Byte} (htoks : toks ⊆ symbols) (line : List Byte) (s : Nat) :
    (peek line s toks).1 = starts toks (tokensAt line s) ∧
      tokensAt line (peek line s toks).2 = tokensAt line s := by
  refine ⟨?_, tokensAt_skip line s⟩
  rw [← tokensAt_skip]
  unfold peek
  generalize hq : skip (strchr whitespace) line s = q
  have hcases := drop_skip_cases line s
  rw [hq] at hcases
  have hget : (line)[q]? = (line.drop q).head? := head?_drop.symm
  dsimp only
  rw [hget]
  rcases hcases with hnil | ⟨c, rest, hcons, hws⟩
  · rw [hnil, tokensAt, hnil, tokens_nil]
    rfl
  · rw [tokensAt, hcons, tokens_cons hws]
    dsimp only [head?_cons]
    cases hsym : Sym.ofByte c with
    | some k => exact congrArg (strchr toks) (byte_of_ofByte hsym).symm
    | none =>
      by_cases hgt : c = 0x3e
      · subst hgt
        dsimp only
        rw [if_pos rfl]
        split <;> rfl
      · -- a word starts with no symbol
        have hword := isWord_of_ofByte hws hsym hgt
        have hnot : strchr toks c = false := by
          rw [strchr, ← Bool.not_eq_true, contains_iff_mem]
          intro hmem
          have hin : strchr symbols c = true := contains_iff_mem.mpr (htoks hmem)
          rw [isWord, hin, Bool.not_true, Bool.and_false] at hword
          cases hword
        rw [hnot]
        dsimp only
        rw [if_neg hgt]
        rfl

theorem gettoken_ps_le (h : s ≤ line.length) : (gettoken line s).ps ≤ line.length := by
  refine skip_le _ ?_
  have hq : skip (strchr whitespace) line s ≤ line.length := skip_le _ h
  generalize skip (strchr whitespace) line s = q at hq
  have hlt : ∀ {i c}, (line)[i]? = some c → i < line.length := fun h => (List.getElem?_eq_some_iff.mp h).1
  show (scan line q).2 ≤ line.length
  unfold scan
  split
  case h_1 => exact hq
  case h_2 c hc =>
    grind [skip_le]

theorem peek_le (toks : List Byte) (h : s ≤ line.length) :
    (peek line s toks).2 ≤ line.length := skip_le _ h

/-- Where no token is left, only white space is. -/
theorem skip_eq_length_iff (h : s ≤ line.length) :
    skip (strchr whitespace) line s = line.length ↔ tokensAt line s = [] := by
  have hle := skip_le (strchr whitespace) h
  rw [← tokensAt_skip]
  rcases drop_skip_cases line s with hnil | ⟨c, rest, hcons, hws⟩
  · have hge := drop_eq_nil_iff.mp hnil
    rw [tokensAt, hnil, tokens_nil]
    exact ⟨fun _ => rfl, fun _ => by omega⟩
  · constructor
    · grind
    · intro htoks
      rw [tokensAt, hcons, tokens_cons hws] at htoks
      grind

end Xv6.Sh
