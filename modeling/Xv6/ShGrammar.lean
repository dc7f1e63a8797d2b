import Xv6.Ends
import Xv6.ShRefine

/-!
# The grammar of the shell

    line  := pipe '&'* [';' line]
    pipe  := exec ['|' pipe]
    exec  := '(' line ')' redir* | redir* (word redir*)*
    redir := ('<' | '>' | '>>') word

with at most `MAXARGS - 1` words in a simple command. `Derives` gives each
derivation its tree: a redirection is around all that precedes it, and the
words of a simple command are in the one node inside. The parser over
tokens returns the tree of a derivation and the tokens after it
(`parse_sound`), finds each derivation that what follows does not extend
(`Derives.complete`), and never runs out of calls (`parse_stops`).
-/

namespace Xv6.Sh

open List Ends Nat

open ByteVec (Byte)

structure Redir where
  file : List Byte
  mode : Nat
  fd : Nat
deriving DecidableEq

def Tree.wrap (c : Tree) (r : Redir) : Tree := .redir c r.file r.mode r.fd

/-- `redir*`. -/
inductive Redirs : List Tok → List Redir → Prop where
  | nil : Redirs [] []
  | cons {k w mode fd ts rs} : Sym.redir? k = some (mode, fd) → Redirs ts rs →
      Redirs (.sym k :: .word w :: ts) (⟨w, mode, fd⟩ :: rs)

/-- `(word redir*)*`, its words and its redirections. -/
inductive Words : List Tok → List (List Byte) → List Redir → Prop where
  | nil : Words [] [] []
  | cons {w ts rs us ws rs'} : Redirs ts rs → Words us ws rs' →
      Words (.word w :: (ts ++ us)) (w :: ws) (rs ++ rs')

inductive Nonterminal where
  | line
  | pipe
  | exec

inductive Derives : Nonterminal → List Tok → Tree → Prop where
  | line {ts c} (k : Nat) : Derives .pipe ts c →
      Derives .line (ts ++ replicate k (.sym .amp)) (Tree.back^[k] c)
  | seq {ts c us d} (k : Nat) : Derives .pipe ts c → Derives .line us d →
      Derives .line (ts ++ (replicate k (.sym .amp) ++ .sym .semi :: us))
        (.list (Tree.back^[k] c) d)
  | single {ts c} : Derives .exec ts c → Derives .pipe ts c
  | pipe {ts c us d} : Derives .exec ts c → Derives .pipe us d →
      Derives .pipe (ts ++ .sym .bar :: us) (.pipe c d)
  | block {ts c us rs} : Derives .line ts c → Redirs us rs →
      Derives .exec (.sym .lparen :: (ts ++ .sym .rparen :: us)) (rs.foldl Tree.wrap c)
  | simple {ts rs us ws rs'} : Redirs ts rs → Words us ws rs' → ws.length ≤ MAXARGS - 1 →
      Derives .exec (ts ++ us) ((rs ++ rs').foldl Tree.wrap (.exec ws))

/-! ## First tokens -/

section starts

variable {ts us rest : List Tok} {toks : List Byte}

theorem starts_iff {k : Sym} {b : Byte} (hk : ∀ k' : Sym, strchr [b] k'.byte = true ↔ k' = k) :
    starts [b] ts = true ↔ ∃ us, ts = .sym k :: us := by
  match ts with
  | [] | .word _ :: _ => exact ⟨fun h => (nomatch h), fun ⟨_, h⟩ => nomatch h⟩
  | .sym k' :: us =>
    refine (hk k').trans ⟨fun h => ⟨us, by rw [h]⟩, fun ⟨_, h⟩ => ?_⟩
    injection h with h
    injection h

theorem starts_amp : starts [0x26] ts = true ↔ ∃ us, ts = .sym .amp :: us :=
  starts_iff fun k => by cases k <;> decide

theorem starts_semi : starts [0x3b] ts = true ↔ ∃ us, ts = .sym .semi :: us :=
  starts_iff fun k => by cases k <;> decide

theorem starts_bar : starts [0x7c] ts = true ↔ ∃ us, ts = .sym .bar :: us :=
  starts_iff fun k => by cases k <;> decide

theorem starts_lparen : starts [0x28] ts = true ↔ ∃ us, ts = .sym .lparen :: us :=
  starts_iff fun k => by cases k <;> decide

theorem starts_rparen : starts [0x29] ts = true ↔ ∃ us, ts = .sym .rparen :: us :=
  starts_iff fun k => by cases k <;> decide

/-- `peek(ps, es, "<>")` finds the redirections. -/
theorem redir?_of_starts {k : Sym} (h : starts [0x3c, 0x3e] (.sym k :: ts) = true) :
    ∃ mode fd, k.redir? = some (mode, fd) := by
  cases k <;> first | exact ⟨_, _, rfl⟩ | cases h

theorem starts_of_redir? {k : Sym} {md : Nat × Nat} (h : k.redir? = some md) :
    starts [0x3c, 0x3e] (.sym k :: ts) = true := by
  cases k <;> first | rfl | cases h

end starts

/-! ## Soundness -/

theorem Tree.addArg_wraps (rs : List Redir) (c : Tree) (w : List Byte) :
    (rs.foldl Tree.wrap c).addArg w = rs.foldl Tree.wrap (c.addArg w) := by
  induction rs generalizing c with
  | nil => rfl
  | cons r rs ih => exact ih (c.wrap r)

theorem redirs_sound {n : Nat} {c d : Tree} {ts rest : List Tok}
    (h : Tokens.redirs n c ts = .ok (d, rest)) :
    ∃ us rs, ts = us ++ rest ∧ Redirs us rs ∧ d = rs.foldl Tree.wrap c := by
  induction n generalizing c ts with
  | zero => cases h
  | succ n ih =>
    rw [Tokens.redirs_succ] at h
    split at h
    case isFalse =>
      cases h
      exact ⟨[], [], rfl, .nil, rfl⟩
    case isTrue hstart =>
      match ts with
      | .sym k :: .word w :: ts =>
        obtain ⟨mode, fd, hk⟩ := redir?_of_starts hstart
        dsimp only at h
        rw [hk] at h
        obtain ⟨us, rs, rfl, hrs, rfl⟩ := ih h
        exact ⟨_, _, rfl, .cons hk hrs, rfl⟩
      | [] | .word _ :: _ | [.sym _] | .sym _ :: .sym _ :: _ => cases h

theorem args_sound {n : Nat} {d : Tree} {ts rest : List Tok} {rs : List Redir}
    {ws : List (List Byte)} (hlen : ws.length ≤ MAXARGS - 1)
    (h : Tokens.args n (rs.foldl Tree.wrap (.exec ws)) ws.length ts = .ok (d, rest)) :
    ∃ us ws' rs', ts = us ++ rest ∧ Words us ws' rs' ∧ (ws ++ ws').length ≤ MAXARGS - 1 ∧
      d = (rs ++ rs').foldl Tree.wrap (.exec (ws ++ ws')) := by
  induction n generalizing ts rs ws with
  | zero => cases h
  | succ n ih =>
    rw [Tokens.args_succ] at h
    split at h
    case isTrue =>
      cases h
      exact ⟨[], [], [], rfl, .nil, by rwa [append_nil], by rw [append_nil, append_nil]⟩
    case isFalse =>
      match ts with
      | [] =>
        cases h
        exact ⟨[], [], [], rfl, .nil, by rwa [append_nil], by rw [append_nil, append_nil]⟩
      | .sym _ :: _ => cases h
      | .word w :: ts =>
        dsimp only at h
        split at h
        case isTrue => cases h
        case isFalse hmax =>
          replace hmax : ¬10 ≤ ws.length + 1 := hmax
          obtain ⟨⟨c, ts'⟩, hred, h⟩ := bind_ok h
          rw [Tree.addArg_wraps] at hred
          obtain ⟨us, rs₁, rfl, hrs, rfl⟩ := redirs_sound hred
          rw [← foldl_append, ← show (ws ++ [w]).length = ws.length + 1 from length_append] at h
          obtain ⟨vs, ws', rs₂, rfl, hws, hlen', rfl⟩ :=
            ih (by rw [length_append]; show ws.length + 1 ≤ 9; omega) h
          refine ⟨.word w :: (us ++ vs), w :: ws', rs₁ ++ rs₂, ?_, .cons hrs hws, ?_, ?_⟩
          · rw [cons_append, append_assoc]
          · rwa [append_assoc] at hlen'
          · simp

theorem backs_sound {n : Nat} {c d : Tree} {ts rest : List Tok}
    (h : Tokens.backs n c ts = .ok (d, rest)) :
    ∃ k, ts = replicate k (.sym .amp) ++ rest ∧ d = Tree.back^[k] c := by
  induction n generalizing c ts with
  | zero => cases h
  | succ n ih =>
    rw [Tokens.backs] at h
    split at h
    case isFalse =>
      simp_all
    case isTrue hstart =>
      obtain ⟨us, rfl⟩ := starts_amp.mp hstart
      obtain ⟨k, hk, hd⟩ := ih h
      exact ⟨k + 1, by rw [replicate_succ, cons_append, ← hk]; rfl, hd⟩

/-- What the parser consumes derives the tree it returns. -/
theorem parse_sound (n : Nat) :
    (∀ {ts c rest}, Tokens.line n ts = .ok (c, rest) → ∃ us, ts = us ++ rest ∧ Derives .line us c) ∧
    (∀ {ts c rest}, Tokens.pipe n ts = .ok (c, rest) → ∃ us, ts = us ++ rest ∧ Derives .pipe us c) ∧
    (∀ {ts c rest}, Tokens.block n ts = .ok (c, rest) → ∃ us, ts = us ++ rest ∧ Derives .exec us c) ∧
    (∀ {ts c rest}, Tokens.exec n ts = .ok (c, rest) → ∃ us, ts = us ++ rest ∧ Derives .exec us c) := by
  induction n with
  | zero =>
    simp [Tokens.line, Tokens.pipe, Tokens.block, Tokens.exec]
  | succ n ih =>
    obtain ⟨hline, hpipe, hblock, hexec⟩ := ih
    refine ⟨fun h => ?_, fun h => ?_, fun h => ?_, fun h => ?_⟩
    · rw [Tokens.line] at h
      obtain ⟨⟨c₁, ts₁⟩, h1, h'⟩ := bind_ok h
      obtain ⟨⟨c₂, ts₂⟩, h2, hend⟩ := bind_ok h'
      obtain ⟨us, rfl, hus⟩ := hpipe h1
      obtain ⟨k, rfl, rfl⟩ := backs_sound h2
      dsimp only at hend
      split at hend
      case isFalse =>
        cases hend
        exact ⟨_, (append_assoc ..).symm, .line k hus⟩
      case isTrue hstart =>
        obtain ⟨vs, rfl⟩ := starts_semi.mp hstart
        obtain ⟨⟨d, ts₃⟩, h3, hok⟩ := bind_ok hend
        cases hok
        obtain ⟨us', hvs, hus'⟩ := hline h3
        obtain rfl : vs = us' ++ ts₃ := hvs
        exact ⟨_, by simp only [append_assoc, cons_append], .seq k hus hus'⟩
    · rw [Tokens.pipe] at h
      obtain ⟨⟨c₁, ts₁⟩, h1, hend⟩ := bind_ok h
      obtain ⟨us, rfl, hus⟩ := hexec h1
      dsimp only at hend
      split at hend
      case isFalse =>
        cases hend
        exact ⟨us, rfl, .single hus⟩
      case isTrue hstart =>
        obtain ⟨vs, rfl⟩ := starts_bar.mp hstart
        obtain ⟨⟨d, ts₃⟩, h3, hok⟩ := bind_ok hend
        cases hok
        obtain ⟨us', hvs, hus'⟩ := hpipe h3
        obtain rfl : vs = us' ++ ts₃ := hvs
        exact ⟨_, by simp only [append_assoc, cons_append], .pipe hus hus'⟩
    · rw [Tokens.block] at h
      split at h
      case isFalse => cases h
      case isTrue hstart =>
        obtain ⟨vs, rfl⟩ := starts_lparen.mp hstart
        obtain ⟨⟨c₁, ts₁⟩, h1, hend⟩ := bind_ok h
        obtain ⟨us, hvs, hus⟩ := hline h1
        obtain rfl : vs = us ++ ts₁ := hvs
        dsimp only at hend
        split at hend
        case isFalse => cases hend
        case isTrue hstart' =>
          obtain ⟨vs', rfl⟩ := starts_rparen.mp hstart'
          obtain ⟨us', rs, hvs', hrs, rfl⟩ := redirs_sound hend
          obtain rfl : vs' = us' ++ _ := hvs'
          exact ⟨_, by simp only [append_assoc, cons_append], .block hus hrs⟩
    · rw [Tokens.exec] at h
      split at h
      case isTrue => exact hblock h
      case isFalse =>
        obtain ⟨⟨c₁, ts₁⟩, h1, hend⟩ := bind_ok h
        obtain ⟨us, rs, rfl, hrs, rfl⟩ := redirs_sound h1
        obtain ⟨vs, ws, rs', rfl, hws, hlen, rfl⟩ := @args_sound _ _ _ _ _ [] (zero_le _) hend
        exact ⟨_, (append_assoc ..).symm, .simple hrs hws hlen⟩

/-! ## Completeness -/

/-- The symbols that may come after a phrase. -/
def Nonterminal.follow : Nonterminal → List Sym
  | .line => [.rparen]
  | .pipe => [.rparen, .amp, .semi]
  | .exec => [.rparen, .amp, .semi, .bar]

def Follow (nt : Nonterminal) (rest : List Tok) : Prop :=
  rest = [] ∨ ∃ k us, rest = .sym k :: us ∧ k ∈ nt.follow

theorem Follow.not_starts {nt : Nonterminal} {rest : List Tok} {toks : List Byte}
    (h : Follow nt rest) (htoks : ∀ k ∈ nt.follow, strchr toks k.byte = false) :
    ¬starts toks rest = true := by
  rcases h with rfl | ⟨k, us, rfl, hk⟩
  · exact fun h => nomatch h
  · intro h
    rw [starts, htoks k hk] at h
    cases h

theorem Follow.mono {nt nt' : Nonterminal} {rest : List Tok} (h : Follow nt rest)
    (hsub : nt.follow ⊆ nt'.follow) : Follow nt' rest :=
  h.imp_right fun ⟨k, us, hr, hk⟩ => ⟨k, us, hr, hsub hk⟩

theorem Follow.sym {nt : Nonterminal} {k : Sym} (h : k ∈ nt.follow) (us : List Tok) :
    Follow nt (.sym k :: us) := .inr ⟨k, us, rfl, h⟩

theorem Redirs.complete {us rest : List Tok} {rs : List Redir} (h : Redirs us rs)
    (hrest : ¬starts [0x3c, 0x3e] rest = true) {n : Nat} (hn : us.length < n) (c : Tree) :
    Tokens.redirs n c (us ++ rest) = .ok (rs.foldl Tree.wrap c, rest) := by
  induction h generalizing n c with
  | nil =>
    obtain ⟨n, rfl⟩ := Nat.exists_eq_add_one_of_ne_zero (Nat.pos_iff_ne_zero.mp hn)
    rw [Tokens.redirs_succ, nil_append, if_neg hrest]
    rfl
  | cons hk _ ih =>
    obtain ⟨n, rfl⟩ := Nat.exists_eq_add_one_of_ne_zero (Nat.ne_zero_of_lt hn)
    rw [Tokens.redirs_succ, cons_append, cons_append, if_pos (starts_of_redir? hk)]
    dsimp only
    rw [hk]
    simp only [length_cons] at hn
    exact ih (by omega) _

/-- What is left of a list of words starts with no redirection. -/
theorem Words.not_starts {us rest : List Tok} {ws : List (List Byte)} {rs : List Redir}
    {toks : List Byte} (h : Words us ws rs) (hrest : ¬starts toks rest = true) :
    ¬starts toks (us ++ rest) = true := by
  cases h with
  | nil => exact hrest
  | cons => exact fun h => nomatch h

theorem Words.complete {us rest : List Tok} {ws' : List (List Byte)} {rs' : List Redir}
    (h : Words us ws' rs') (hrest : Follow .exec rest) (ws : List (List Byte)) (rs : List Redir)
    (hlen : (ws ++ ws').length ≤ MAXARGS - 1) {n : Nat} (hn : us.length < n) :
    Tokens.args n (rs.foldl Tree.wrap (.exec ws)) ws.length (us ++ rest) =
      .ok ((rs ++ rs').foldl Tree.wrap (.exec (ws ++ ws')), rest) := by
  induction h generalizing n ws rs with
  | nil =>
    obtain ⟨n, rfl⟩ := Nat.exists_eq_add_one_of_ne_zero (Nat.ne_zero_of_lt hn)
    rw [Tokens.args_succ, nil_append, append_nil, append_nil]
    rcases hrest with rfl | ⟨k, us, rfl, hk⟩
    · rfl
    · have hstop : ∀ k ∈ Nonterminal.exec.follow, strchr [0x7c, 0x29, 0x26, 0x3b] k.byte = true := by
        decide
      rw [if_pos (show starts [0x7c, 0x29, 0x26, 0x3b] (.sym k :: us) = true from hstop k hk)]
  | @cons w ts rs₁ us ws' rs₂ hrs hws ih =>
    obtain ⟨n, rfl⟩ := Nat.exists_eq_add_one_of_ne_zero (Nat.ne_zero_of_lt hn)
    simp only [length_cons, length_append] at hn hlen
    replace hlen : ws.length + (ws'.length + 1) ≤ 9 := hlen
    have hmax : ¬MAXARGS ≤ ws.length + 1 := by
      show ¬10 ≤ ws.length + 1
      omega
    have hred := hrs.complete (hws.not_starts (hrest.not_starts (by decide))) (n := n) (by omega)
      (rs.foldl Tree.wrap (.exec (ws ++ [w])))
    have hargs := ih (ws ++ [w]) (rs ++ rs₁) (n := n)
      (by simp only [length_append, length_cons, length_nil]; show _ ≤ 9; omega)
      (by omega)
    rw [Tokens.args_succ, cons_append, if_neg (fun h => nomatch h)]
    dsimp only
    rw [if_neg hmax, Tree.addArg_wraps, append_assoc]
    rw [show (Tree.exec ws).addArg w = .exec (ws ++ [w]) from rfl, hred]
    show Tokens.args n _ (ws.length + 1) _ = _
    grind

theorem backs_complete {rest : List Tok} (hrest : ¬starts [0x26] rest = true) {k n : Nat}
    (hn : k < n) (c : Tree) :
    Tokens.backs n c (replicate k (.sym .amp) ++ rest) = .ok (Tree.back^[k] c, rest) := by
  induction k generalizing n c with
  | zero =>
    obtain ⟨n, rfl⟩ := Nat.exists_eq_add_one_of_ne_zero (Nat.ne_zero_of_lt hn)
    rw [Tokens.backs, replicate_zero, nil_append, if_neg hrest]
    rfl
  | succ k ih =>
    obtain ⟨n, rfl⟩ := Nat.exists_eq_add_one_of_ne_zero (Nat.ne_zero_of_lt hn)
    rw [Tokens.backs, replicate_succ, cons_append, if_pos (starts_amp.mpr ⟨_, rfl⟩)]
    exact ih (by omega) _

theorem line_eq {n : Nat} {ts us vs : List Tok} {c d : Tree} (hpipe : Tokens.pipe n ts = .ok (c, us))
    (hbacks : Tokens.backs n c us = .ok (d, vs)) :
    Tokens.line (n + 1) ts =
      if starts [0x3b] vs then Tokens.line n vs.tail >>= fun (e, ts) => .ok (.list d e, ts)
      else .ok (d, vs) := by
  rw [Tokens.line, hpipe]
  show (Tokens.backs n c us >>= _) = _
  rw [hbacks]
  rfl

theorem pipe_eq {n : Nat} {ts us : List Tok} {c : Tree} (hexec : Tokens.exec n ts = .ok (c, us)) :
    Tokens.pipe (n + 1) ts =
      if starts [0x7c] us then Tokens.pipe n us.tail >>= fun (d, ts) => .ok (.pipe c d, ts)
      else .ok (c, us) := by
  rw [Tokens.pipe, hexec]
  rfl

theorem block_eq {n : Nat} {ts us : List Tok} {c : Tree} (hline : Tokens.line n ts = .ok (c, us)) :
    Tokens.block (n + 1) (.sym .lparen :: ts) =
      if starts [0x29] us then Tokens.redirs n c us.tail else .error (.panic .missingParen) := by
  rw [Tokens.block, if_pos (starts_lparen.mpr ⟨_, rfl⟩), tail_cons, hline]
  rfl

/-- The parser of a phrase, and the calls it needs at most. -/
def Nonterminal.parse : Nonterminal → Nat → List Tok → Except Stop (Tree × List Tok)
  | .line => Tokens.line
  | .pipe => Tokens.pipe
  | .exec => Tokens.exec

def Nonterminal.calls : Nonterminal → Nat → Nat
  | .line, len => 4 * len + 4
  | .pipe, len => 4 * len + 3
  | .exec, len => 4 * len + 2

theorem Derives.complete {nt : Nonterminal} {us rest : List Tok} {c : Tree} (h : Derives nt us c)
    (hrest : Follow nt rest) {n : Nat} (hn : nt.calls us.length ≤ n) :
    nt.parse n (us ++ rest) = .ok (c, rest) := by
  induction h generalizing rest n with
  | @line ts c k _ ih =>
    simp only [Nonterminal.calls, length_append, length_replicate] at hn
    obtain ⟨n, rfl⟩ := exists_eq_add_one_of_ne_zero (n := n) (by omega)
    have hamps : Follow .pipe (replicate k (.sym .amp) ++ rest) := by
      cases k with
      | zero => exact hrest.mono (by decide)
      | succ k => exact .sym (by decide) _
    have hpipe := ih hamps (n := n) (by show 4 * ts.length + 3 ≤ n; omega)
    have hbacks := backs_complete (hrest.not_starts (by decide)) (show k < n by omega) c
    show Tokens.line (n + 1) _ = _
    rw [append_assoc, line_eq hpipe hbacks, if_neg (hrest.not_starts (by decide))]
  | @seq ts c us d k _ _ ih ih' =>
    simp only [Nonterminal.calls, length_append, length_replicate, length_cons] at hn
    obtain ⟨n, rfl⟩ := exists_eq_add_one_of_ne_zero (n := n) (by omega)
    have hamps : Follow .pipe (replicate k (.sym .amp) ++ (.sym .semi :: (us ++ rest))) := by
      cases k with
      | zero => exact .sym (by decide) _
      | succ k => exact .sym (by decide) _
    have hsemi : ¬starts [0x26] (.sym .semi :: (us ++ rest)) = true := by
      rw [starts_amp]
      rintro ⟨_, h⟩
      cases h
    have hpipe := ih hamps (n := n) (by show 4 * ts.length + 3 ≤ n; omega)
    have hbacks := backs_complete hsemi (show k < n by omega) c
    have hline : Tokens.line n (us ++ rest) = _ := ih' hrest (by show 4 * us.length + 4 ≤ n; omega)
    show Tokens.line (n + 1) _ = _
    rw [append_assoc, append_assoc, cons_append, line_eq hpipe hbacks,
      if_pos (starts_semi.mpr ⟨_, rfl⟩), tail_cons, hline]
    rfl
  | @single ts c _ ih =>
    simp only [Nonterminal.calls] at hn
    obtain ⟨n, rfl⟩ := exists_eq_add_one_of_ne_zero (n := n) (by omega)
    have hexec := ih (hrest.mono (by decide)) (n := n) (by show 4 * ts.length + 2 ≤ n; omega)
    show Tokens.pipe (n + 1) _ = _
    rw [pipe_eq hexec, if_neg (hrest.not_starts (by decide))]
  | @pipe ts c us d _ _ ih ih' =>
    simp only [Nonterminal.calls, length_append, length_cons] at hn
    obtain ⟨n, rfl⟩ := exists_eq_add_one_of_ne_zero (n := n) (by omega)
    have hexec := ih (.sym (k := .bar) (by decide) (us ++ rest)) (n := n)
      (by show 4 * ts.length + 2 ≤ n; omega)
    have hpipe : Tokens.pipe n (us ++ rest) = _ := ih' hrest (by show 4 * us.length + 3 ≤ n; omega)
    show Tokens.pipe (n + 1) _ = _
    rw [append_assoc, cons_append, pipe_eq hexec, if_pos (starts_bar.mpr ⟨_, rfl⟩),
      tail_cons, hpipe]
    rfl
  | @block ts c us rs _ hrs ih =>
    simp only [Nonterminal.calls, length_append, length_cons] at hn
    obtain ⟨n, rfl⟩ := exists_eq_add_one_of_ne_zero (n := n) (by omega)
    obtain ⟨n, rfl⟩ := exists_eq_add_one_of_ne_zero (n := n) (by omega)
    have hline := ih (.sym (k := .rparen) (by decide) (us ++ rest)) (n := n)
      (by show 4 * ts.length + 4 ≤ n; omega)
    rw [Nonterminal.parse, cons_append, append_assoc, cons_append, Tokens.exec,
      if_pos (starts_lparen.mpr ⟨_, rfl⟩), block_eq hline, if_pos (starts_rparen.mpr ⟨_, rfl⟩)]
    exact hrs.complete (hrest.not_starts (by decide)) (by omega) c
  | @simple ts rs us ws rs' hrs hws hlen =>
    simp only [Nonterminal.calls, length_append] at hn
    obtain ⟨n, rfl⟩ := exists_eq_add_one_of_ne_zero (n := n) (by omega)
    have hopen : ¬starts [0x28] (ts ++ (us ++ rest)) = true := by
      cases hrs with
      | nil => exact hws.not_starts (hrest.not_starts (by decide))
      | @cons k _ _ _ _ _ hk _ =>
        rw [cons_append, starts_lparen]
        rintro ⟨_, h⟩
        injection h with h
        injection h with h
        rw [h] at hk
        cases hk
    have hred := hrs.complete (hws.not_starts (hrest.not_starts (by decide))) (n := n) (by omega)
      (.exec [])
    show Tokens.exec (n + 1) _ = _
    rw [append_assoc, Tokens.exec, if_neg hopen, hred]
    exact hws.complete hrest [] rs hlen (by omega)

/-! ## Termination -/

/-- A bind that does not spin. -/
theorem bind_stops {α β : Type} {x : Except Stop α} {f : α → Except Stop β}
    (hx : x ≠ .error .spin) (hf : ∀ a, x = .ok a → f a ≠ .error .spin) : x >>= f ≠ .error .spin := by
  match x with
  | .ok a => exact hf a rfl
  | .error e => exact fun h => hx (by rw [show e = .spin from Except.error.inj h])

theorem redirs_stops {n : Nat} {c : Tree} {ts : List Tok} (hn : ts.length < n) :
    Tokens.redirs n c ts ≠ .error .spin := by
  induction n generalizing c ts with
  | zero => omega
  | succ n ih =>
    rw [Tokens.redirs_succ]
    grind

theorem args_stops {n argc : Nat} {c : Tree} {ts : List Tok} (hn : ts.length < n) :
    Tokens.args n c argc ts ≠ .error .spin := by
  induction n generalizing c ts argc with
  | zero => omega
  | succ n ih =>
    grind [Tokens.args_succ, length_cons, bind_stops, redirs_stops, redirs_sound]

theorem backs_stops {n : Nat} {c : Tree} {ts : List Tok} (hn : ts.length < n) :
    Tokens.backs n c ts ≠ .error .spin := by
  induction n generalizing c ts with
  | zero => omega
  | succ n ih =>
    rw [Tokens.backs]
    split
    case isFalse => rintro ⟨⟩
    case isTrue hstart =>
      obtain ⟨us, rfl⟩ := starts_amp.mp hstart
      grind

/-- With the calls that the number of tokens asks for, the parser stops by
itself. -/
theorem parse_stops (n : Nat) :
    (∀ {ts : List Tok}, 4 * ts.length + 4 ≤ n → Tokens.line n ts ≠ .error .spin) ∧
    (∀ {ts : List Tok}, 4 * ts.length + 3 ≤ n → Tokens.pipe n ts ≠ .error .spin) ∧
    (∀ {ts : List Tok}, 4 * ts.length + 1 ≤ n → Tokens.block n ts ≠ .error .spin) ∧
    (∀ {ts : List Tok}, 4 * ts.length + 2 ≤ n → Tokens.exec n ts ≠ .error .spin) := by
  induction n with
  | zero => exact ⟨by omega, by omega, by omega, by omega⟩
  | succ n ih =>
    obtain ⟨hline, hpipe, hblock, hexec⟩ := ih
    refine ⟨fun {ts} hn => ?_, fun {ts} hn => ?_, fun {ts} hn => ?_, fun {ts} hn => ?_⟩
    · rw [Tokens.line]
      refine bind_stops (hpipe (by omega)) ?_
      rintro ⟨c, ts₁⟩ h1
      obtain ⟨us, rfl, -⟩ := (parse_sound n).2.1 h1
      rw [length_append] at hn
      refine bind_stops (backs_stops (by show ts₁.length < n; omega)) ?_
      rintro ⟨d, ts₂⟩ h2
      obtain ⟨k, rfl, -⟩ := backs_sound h2
      rw [length_append] at hn
      dsimp only
      split
      case isFalse => rintro ⟨⟩
      case isTrue hstart =>
        obtain ⟨vs, rfl⟩ := starts_semi.mp hstart
        simp only [length_cons] at hn
        grind [bind_stops]
    · rw [Tokens.pipe]
      refine bind_stops (hexec (by omega)) ?_
      rintro ⟨c, ts₁⟩ h1
      obtain ⟨us, rfl, -⟩ := (parse_sound n).2.2.2 h1
      rw [length_append] at hn
      dsimp only
      split
      case isFalse => rintro ⟨⟩
      case isTrue hstart =>
        obtain ⟨vs, rfl⟩ := starts_bar.mp hstart
        grind [length_cons, bind_stops]
    · rw [Tokens.block]
      split
      case isFalse =>
        intro h
        cases h
      case isTrue hstart =>
        obtain ⟨vs, rfl⟩ := starts_lparen.mp hstart
        simp only [length_cons] at hn
        refine bind_stops (hline (by show 4 * vs.length + 4 ≤ n; omega)) ?_
        rintro ⟨c, ts₁⟩ h1
        obtain ⟨us, hvs, -⟩ := (parse_sound n).1 h1
        grind [length_append, length_cons, redirs_stops]
    · rw [Tokens.exec]
      grind [length_append, bind_stops, redirs_stops, redirs_sound, args_stops]

/-! ## `parsecmd` -/

theorem length_tokens_le (line : List Byte) : (tokens line).length ≤ line.length := by
  fun_induction tokens line with
  | case1 => exact le_refl _
  | case2 c rest _ ih => exact le_succ_of_le ih
  | case3 c rest _ k _ ih => exact succ_le_succ ih
  | case4 rest _ _ _ ih =>
    have := length_tail (l := rest)
    simp only [length_cons]
    omega
  | case5 rest _ _ _ ih => exact succ_le_succ ih
  | case6 c rest _ _ _ ih =>
    have := (dropWhile_sublist isWord (l := rest)).length_le
    simp only [length_cons]
    omega

theorem cmd_ok_iff {n : Nat} {ts : List Tok} (hn : 4 * ts.length + 4 ≤ n) (t : Tree) :
    Tokens.cmd n ts = .ok t ↔ Derives .line ts t := by
  constructor
  · intro h
    obtain ⟨⟨c, rest⟩, h1, h2⟩ := bind_ok h
    obtain ⟨us, rfl, hus⟩ := (parse_sound n).1 h1
    grind
  · intro h
    have hok := @Derives.complete _ _ [] _ h (.inl rfl) n hn
    rw [append_nil] at hok
    rw [Tokens.cmd, show Tokens.line n ts = _ from hok]
    rfl

theorem cmd_stops {n : Nat} {ts : List Tok} (hn : 4 * ts.length + 4 ≤ n) :
    Tokens.cmd n ts ≠ .error .spin := by
  refine bind_stops ((parse_stops n).1 hn) fun ⟨c, rest⟩ _ => ?_
  dsimp only
  split
  · exact fun h => nomatch h
  · intro h
    cases h

/-- `parsecmd` returns the tree of a line exactly when the line has one, and
ends in a panic on every other line. -/
theorem parsecmd_accepts_exactly (buf : List Byte) :
    (∀ t, (∃ cmd buf', parsecmd buf = .ok (cmd, buf') ∧ cmd.tree buf' = t) ↔
      Derives .line (tokens (cstr buf)) t) ∧
    ((¬∃ t, Derives .line (tokens (cstr buf)) t) → ∃ p, parsecmd buf = .error (.panic p)) := by
  have hlen := length_tokens_le (cstr buf)
  have hn : 4 * (tokens (cstr buf)).length + 4 ≤ 4 * (cstr buf).length + 4 := by omega
  have href := parsecmd_refines buf
  refine ⟨fun t => ?_, fun hnone => ?_⟩
  · rw [← cmd_ok_iff hn t, ← href]
    cases parsecmd buf with
    | error e => exact ⟨fun ⟨_, _, h, _⟩ => (nomatch h), fun h => nomatch h⟩
    | ok r => exact ⟨fun ⟨_, _, h, ht⟩ => by rw [Except.ok.inj h, ← ht]; rfl,
        fun h => ⟨r.1, r.2, rfl, Except.ok.inj h⟩⟩
  · cases hp : parsecmd buf with
    | ok r =>
      rw [hp] at href
      exact (hnone ⟨_, (cmd_ok_iff hn _).mp href.symm⟩).elim
    | error e =>
      rw [hp] at href
      match e with
      | .panic p => exact ⟨p, rfl⟩
      | .spin => exact (cmd_stops hn href.symm).elim

/-- Only the tokens of a line matter: lines that differ in white space
have the same tree, or none. -/
theorem parsecmd_reads_tokens : ∃ F : List Tok → Option Tree, ∀ buf,
    ((parsecmd buf).map fun (c, b) => c.tree b).toOption = F (tokens (cstr buf)) := by
  have htoOption : ∀ {x : Except Stop Tree} {t}, x.toOption = some t ↔ x = .ok t := by
    rintro (e | u) t <;> simp [Except.toOption]
  refine ⟨fun ts => (Tokens.cmd (4 * ts.length + 4) ts).toOption, fun buf => ?_⟩
  have hlen := length_tokens_le (cstr buf)
  ext t
  rw [parsecmd_refines, htoOption, htoOption, cmd_ok_iff (by omega), cmd_ok_iff le_rfl]

/-- `a<f b`: the word after the redirection is in the node inside it. -/
example : parsecmd [0x61, 0x3c, 0x66, 0x20, 0x62, 0] =
    .ok (.redir (.exec [(0, 1), (4, 5)]) 2 3 O_RDONLY 0, [0x61, 0, 0x66, 0, 0x62, 0]) := by
  decide +kernel

end Xv6.Sh
