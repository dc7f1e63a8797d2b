import Xv6.ShParse

/-!
# The parser over tokens

The shell parser once more, with the rest of the tokens in place of the
cursor and the words in place of pointers. `parsecmd` refines it: the two
take the same steps, stop with the same panic, and the tree that
`parsecmd` returns reads, after `nulterminate`, as the one over tokens
(`parsecmd_refines`).
-/

namespace Xv6.Sh

open List

open ByteVec (Byte)

/-- A command with its words. -/
inductive Tree where
  | exec (argv : List (List Byte))
  | redir (cmd : Tree) (file : List Byte) (mode fd : Nat)
  | pipe (left right : Tree)
  | list (left right : Tree)
  | back (cmd : Tree)
deriving DecidableEq

def Tree.addArg : Tree → List Byte → Tree
  | .exec argv, w => .exec (argv ++ [w])
  | .redir c file mode fd, w => .redir (c.addArg w) file mode fd
  | c, _ => c

/-! ## The parser -/

namespace Tokens

def redirs : Nat → Tree → List Tok → Except Stop (Tree × List Tok)
  | 0, _, _ => .error .spin
  | n + 1, c, ts =>
      if starts [0x3c, 0x3e] ts then
        match ts with
        | .sym k :: .word w :: ts =>
            match k.redir? with
            | some (mode, fd) => redirs n (.redir c w mode fd) ts
            | none => redirs n c ts
        | _ => .error (.panic .missingFile)
      else .ok (c, ts)

theorem redirs_succ (n : Nat) (c : Tree) (ts : List Tok) :
    redirs (n + 1) c ts =
      if starts [0x3c, 0x3e] ts then
        match ts with
        | .sym k :: .word w :: ts =>
          match k.redir? with
          | some (mode, fd) => redirs n (.redir c w mode fd) ts
          | none => redirs n c ts
        | _ => .error (.panic .missingFile)
      else .ok (c, ts) := rfl

def args : Nat → Tree → Nat → List Tok → Except Stop (Tree × List Tok)
  | 0, _, _, _ => .error .spin
  | n + 1, c, argc, ts =>
      if starts [0x7c, 0x29, 0x26, 0x3b] ts then .ok (c, ts)
      else
        match ts with
        | [] => .ok (c, [])
        | .sym _ :: _ => .error (.panic .malformed)
        | .word w :: ts =>
            if MAXARGS ≤ argc + 1 then .error (.panic .tooManyArgs)
            else do
              let (c, ts) ← redirs n (c.addArg w) ts
              args n c (argc + 1) ts

theorem args_succ (n : Nat) (c : Tree) (argc : Nat) (ts : List Tok) :
    args (n + 1) c argc ts =
      if starts [0x7c, 0x29, 0x26, 0x3b] ts then .ok (c, ts)
      else
        match ts with
        | [] => .ok (c, [])
        | .sym _ :: _ => .error (.panic .malformed)
        | .word w :: ts =>
          if MAXARGS ≤ argc + 1 then .error (.panic .tooManyArgs)
          else redirs n (c.addArg w) ts >>= fun (c, ts) => args n c (argc + 1) ts := rfl

def backs : Nat → Tree → List Tok → Except Stop (Tree × List Tok)
  | 0, _, _ => .error .spin
  | n + 1, c, ts => if starts [0x26] ts then backs n (.back c) ts.tail else .ok (c, ts)

mutual

def line : Nat → List Tok → Except Stop (Tree × List Tok)
  | 0, _ => .error .spin
  | n + 1, ts => do
      let (c, ts) ← pipe n ts
      let (c, ts) ← backs n c ts
      if starts [0x3b] ts then do
        let (d, ts) ← line n ts.tail
        .ok (.list c d, ts)
      else .ok (c, ts)

def pipe : Nat → List Tok → Except Stop (Tree × List Tok)
  | 0, _ => .error .spin
  | n + 1, ts => do
      let (c, ts) ← exec n ts
      if starts [0x7c] ts then do
        let (d, ts) ← pipe n ts.tail
        .ok (.pipe c d, ts)
      else .ok (c, ts)

def block : Nat → List Tok → Except Stop (Tree × List Tok)
  | 0, _ => .error .spin
  | n + 1, ts =>
      if starts [0x28] ts then do
        let (c, ts) ← line n ts.tail
        if starts [0x29] ts then redirs n c ts.tail else .error (.panic .missingParen)
      else .error (.panic .parseblock)

def exec : Nat → List Tok → Except Stop (Tree × List Tok)
  | 0, _ => .error .spin
  | n + 1, ts =>
      if starts [0x28] ts then block n ts
      else do
        let (c, ts) ← redirs n (.exec []) ts
        args n c 0 ts

end

end Tokens

/-! ## The trees -/

/-- The pointers of a command delimit the words of a tree. -/
inductive Reads (line : List Byte) : Cmd → Tree → Prop where
  | exec {argv ws} : List.Forall₂ (fun a w => WordAt line a.1 a.2 w) argv ws →
      Reads line (.exec argv) (.exec ws)
  | redir {c t q eq w mode fd} : Reads line c t → WordAt line q eq w →
      Reads line (.redir c q eq mode fd) (.redir t w mode fd)
  | pipe {l r l' r'} : Reads line l l' → Reads line r r' → Reads line (.pipe l r) (.pipe l' r')
  | list {l r l' r'} : Reads line l l' → Reads line r r' → Reads line (.list l r) (.list l' r')
  | back {c t} : Reads line c t → Reads line (.back c) (.back t)

theorem Reads.addArg {line : List Byte} {c : Cmd} {t : Tree} {q eq : Nat} {w : List Byte}
    (h : Reads line c t) (hw : WordAt line q eq w) : Reads line (c.addArg q eq) (t.addArg w) := by
  induction h with
  | exec h => exact .exec (rel_append h (.cons hw .nil))
  | redir _ hf ih => exact .redir ih hf
  | pipe hl hr => exact .pipe hl hr
  | list hl hr => exact .list hl hr
  | back h => exact .back h

/-! ## The refinement -/

/-- A result over the line and one over its tokens. -/
def Sim (line : List Byte) : Except Stop (Cmd × Nat) → Except Stop (Tree × List Tok) → Prop
  | .ok (c, s), .ok (t, ts) => Reads line c t ∧ s ≤ line.length ∧ tokensAt line s = ts
  | .error e, .error e' => e = e'
  | _, _ => False

theorem Sim.bind {line : List Byte} {x : Except Stop (Cmd × Nat)}
    {y : Except Stop (Tree × List Tok)} {f : Cmd × Nat → Except Stop (Cmd × Nat)}
    {g : Tree × List Tok → Except Stop (Tree × List Tok)} (h : Sim line x y)
    (hf : ∀ {c s t}, Reads line c t → s ≤ line.length →
      Sim line (f (c, s)) (g (t, tokensAt line s))) : Sim line (x >>= f) (y >>= g) := by
  match x, y with
  | .ok (c, s), .ok (t, ts) =>
    obtain ⟨hr, hs, rfl⟩ := h
    exact hf hr hs
  | .error e, .error e' => exact h
  | .ok _, .error _ | .error _, .ok _ => exact h.elim

section Refinement

variable {line : List Byte} {s : Nat} {c : Cmd} {t : Tree}

theorem gettoken_tail (line : List Byte) (s : Nat) :
    tokensAt line (gettoken line s).ps = (tokensAt line s).tail := by
  have h := gettoken_spec line s
  match hts : tokensAt line s with
  | [] =>
    rw [hts] at h
    exact h.2
  | .sym k :: ts =>
    rw [hts] at h
    exact h.2
  | .word w :: ts =>
    rw [hts] at h
    exact h.2.2

theorem peek_eq (toks : List Byte) (htoks : toks ⊆ symbols) (hs : s ≤ line.length) :
    ∃ s', peek line s toks = (starts toks (tokensAt line s), s') ∧ s' ≤ line.length ∧
      tokensAt line s' = tokensAt line s := by
  obtain ⟨h1, h2⟩ := peek_spec htoks line s
  exact ⟨_, Prod.ext h1 rfl, peek_le toks hs, h2⟩

theorem starts_sym {toks : List Byte} {ts : List Tok} (h : starts toks ts = true) :
    ∃ k ts', ts = .sym k :: ts' := by
  match ts with
  | .sym k :: ts' => exact ⟨k, ts', rfl⟩
  | [] | .word _ :: _ => cases h

theorem parseredirs_sim (n : Nat) (hr : Reads line c t) (hs : s ≤ line.length) :
    Sim line (parseredirs line n c s) (Tokens.redirs n t (tokensAt line s)) := by
  induction n generalizing c t s with
  | zero => rfl
  | succ n ih =>
    obtain ⟨s', hp, hs', ht⟩ := peek_eq [0x3c, 0x3e] (by decide) hs
    rw [parseredirs, Tokens.redirs_succ, hp]
    dsimp only
    split
    case isFalse => exact ⟨hr, hs', ht⟩
    case isTrue hstart =>
      obtain ⟨k, ts, hts⟩ := starts_sym hstart
      have htok := gettoken_spec line s'
      rw [ht, hts] at htok
      obtain ⟨hret, hrest⟩ := htok
      have hle := gettoken_ps_le hs'
      generalize gettoken line s' = tok at hret hrest hle
      have hg := gettoken_spec line tok.ps
      have hle' := gettoken_ps_le hle
      generalize gettoken line tok.ps = g at hg hle'
      rw [hrest] at hg
      rw [hts]
      match ts with
      | [] | .sym _ :: _ =>
        rw [if_pos (by rw [hg.1]; exact fun h => nomatch h)]
        rfl
      | .word w :: ts =>
        obtain ⟨hgret, hw, hgrest⟩ := hg
        rw [if_neg (not_not.mpr hgret), hret]
        dsimp only
        cases k.redir? with
        | none =>
          rw [← hgrest]
          exact ih hr hle'
        | some md =>
          rw [← hgrest]
          exact ih (.redir hr hw) hle'

theorem parseargs_sim (n argc : Nat) (hr : Reads line c t) (hs : s ≤ line.length) :
    Sim line (parseargs line n c argc s) (Tokens.args n t argc (tokensAt line s)) := by
  induction n generalizing c t s argc with
  | zero => rfl
  | succ n ih =>
    obtain ⟨s', hp, hs', ht⟩ := peek_eq [0x7c, 0x29, 0x26, 0x3b] (by decide) hs
    rw [parseargs, Tokens.args_succ, hp]
    dsimp only
    split
    case isTrue => exact ⟨hr, hs', ht⟩
    case isFalse =>
      have hg := gettoken_spec line s'
      have hle := gettoken_ps_le hs'
      generalize gettoken line s' = g at hg hle
      rw [ht] at hg
      match hts : tokensAt line s with
      | [] =>
        rw [hts] at hg
        rw [if_pos hg.1]
        exact ⟨hr, hle, hg.2⟩
      | .sym k :: ts =>
        rw [hts] at hg
        rw [if_neg (by rw [hg.1]; exact fun h => nomatch h),
          if_pos (by rw [hg.1]; exact fun h => nomatch h)]
        rfl
      | .word w :: ts =>
        rw [hts] at hg
        obtain ⟨hret, hw, hrest⟩ := hg
        rw [if_neg (by rw [hret]; exact fun h => nomatch h), if_neg (not_not.mpr hret)]
        dsimp only
        split
        case isTrue => rfl
        case isFalse =>
          rw [← hrest]
          exact (parseredirs_sim n (hr.addArg hw) hle).bind fun hr' hs' => ih (argc + 1) hr' hs'

theorem parsebacks_sim (n : Nat) (hr : Reads line c t) (hs : s ≤ line.length) :
    Sim line (parsebacks line n c s) (Tokens.backs n t (tokensAt line s)) := by
  induction n generalizing c t s with
  | zero => rfl
  | succ n ih =>
    obtain ⟨s', hp, hs', ht⟩ := peek_eq [0x26] (by decide) hs
    rw [parsebacks, Tokens.backs, hp]
    dsimp only
    split
    case isFalse => exact ⟨hr, hs', ht⟩
    case isTrue =>
      have h := ih (.back hr) (gettoken_ps_le hs')
      rwa [gettoken_tail, ht] at h

/-- The four functions that call each other, in one induction on the number
of calls. -/
theorem parse_sim (n : Nat) :
    (∀ {s}, s ≤ line.length → Sim line (parseline line n s) (Tokens.line n (tokensAt line s))) ∧
    (∀ {s}, s ≤ line.length → Sim line (parsepipe line n s) (Tokens.pipe n (tokensAt line s))) ∧
    (∀ {s}, s ≤ line.length → Sim line (parseblock line n s) (Tokens.block n (tokensAt line s))) ∧
    (∀ {s}, s ≤ line.length → Sim line (parseexec line n s) (Tokens.exec n (tokensAt line s))) := by
  induction n with
  | zero =>
    refine ⟨fun _ => ?_, fun _ => ?_, fun _ => ?_, fun _ => ?_⟩
    · rw [parseline, Tokens.line]
      rfl
    · rw [parsepipe, Tokens.pipe]
      rfl
    · rw [parseblock, Tokens.block]
      rfl
    · rw [parseexec, Tokens.exec]
      rfl
  | succ n ih =>
    obtain ⟨hline, hpipe, hblock, hexec⟩ := ih
    refine ⟨fun {s} hs => ?_, fun {s} hs => ?_, fun {s} hs => ?_, fun {s} hs => ?_⟩
    · rw [parseline, Tokens.line]
      refine (hpipe hs).bind fun hr hs => (parsebacks_sim n hr hs).bind fun {c s t} hr hs => ?_
      obtain ⟨s', hp, hs', ht⟩ := peek_eq [0x3b] (by decide) hs
      dsimp only
      rw [hp]
      dsimp only
      split
      case isFalse => exact ⟨hr, hs', ht⟩
      case isTrue =>
        have h := hline (gettoken_ps_le hs')
        rw [gettoken_tail, ht] at h
        exact h.bind fun hr' hs'' => ⟨.list hr hr', hs'', rfl⟩
    · rw [parsepipe, Tokens.pipe]
      refine (hexec hs).bind fun {c s t} hr hs => ?_
      obtain ⟨s', hp, hs', ht⟩ := peek_eq [0x7c] (by decide) hs
      dsimp only
      rw [hp]
      dsimp only
      split
      case isFalse => exact ⟨hr, hs', ht⟩
      case isTrue =>
        have h := hpipe (gettoken_ps_le hs')
        rw [gettoken_tail, ht] at h
        exact h.bind fun hr' hs'' => ⟨.pipe hr hr', hs'', rfl⟩
    · obtain ⟨s', hp, hs', ht⟩ := peek_eq [0x28] (by decide) hs
      rw [parseblock, Tokens.block, hp]
      dsimp only
      split
      case isFalse => rfl
      case isTrue =>
        have h := hline (gettoken_ps_le hs')
        rw [gettoken_tail, ht] at h
        refine h.bind fun {c s t} hr hs => ?_
        obtain ⟨s', hp, hs', ht⟩ := peek_eq [0x29] (by decide) hs
        dsimp only
        rw [hp]
        dsimp only
        split
        case isFalse => rfl
        case isTrue =>
          have h := parseredirs_sim n hr (gettoken_ps_le hs')
          rwa [gettoken_tail, ht] at h
    · obtain ⟨s', hp, hs', ht⟩ := peek_eq [0x28] (by decide) hs
      rw [parseexec, Tokens.exec, hp]
      dsimp only
      split
      case isTrue =>
        rw [← ht]
        exact hblock hs'
      case isFalse =>
        rw [← ht]
        exact (parseredirs_sim n (.exec .nil) hs').bind fun hr hs => parseargs_sim n 0 hr hs

end Refinement

/-! ## `nulterminate` -/

/-- The tree of a command in a buffer: each word is the string its pointer
points to. -/
def Cmd.tree (buf : List Byte) : Cmd → Tree
  | .exec argv => .exec (argv.map fun a => cstr (buf.drop a.1))
  | .redir c file _ mode fd => .redir (c.tree buf) (cstr (buf.drop file)) mode fd
  | .pipe l r => .pipe (l.tree buf) (r.tree buf)
  | .list l r => .list (l.tree buf) (r.tree buf)
  | .back c => .back (c.tree buf)

/-- The ends of the words of a command. -/
def Cmd.ends : Cmd → List Nat
  | .exec argv => argv.map Prod.snd
  | .redir c _ efile _ _ => c.ends ++ [efile]
  | .pipe l r | .list l r => l.ends ++ r.ends
  | .back c => c.ends

/-- A NUL at each of some places. -/
def nuls (ends : List Nat) (buf : List Byte) : List Byte :=
  ends.foldl (fun buf e => buf.set e 0) buf

theorem nulterminate_eq (c : Cmd) (buf : List Byte) : nulterminate c buf = nuls c.ends buf := by
  induction c generalizing buf with
  | exec argv => rw [nulterminate, Cmd.ends, nuls, foldl_map]
  | redir c _ efile _ _ ih => rw [nulterminate, ih, Cmd.ends, nuls, nuls, foldl_append]; rfl
  | pipe l r ihl ihr | list l r ihl ihr =>
    rw [nulterminate, ihl, ihr, Cmd.ends, nuls, nuls, nuls, foldl_append]
  | back c ih => rw [nulterminate, ih, Cmd.ends]

theorem getElem?_nuls (ends : List Nat) (buf : List Byte) (i : Nat) :
    (nuls ends buf)[i]? = if i ∈ ends then buf[i]?.map fun _ => 0 else buf[i]? := by
  induction ends generalizing buf with
  | nil => rfl
  | cons e ends ih =>
    rw [nuls, foldl_cons, ← nuls, ih, getElem?_set]
    by_cases hie : e = i
    · grind
    · simp [hie, Ne.symm hie]

section Words

variable {line buf w : List Byte} {q eq : Nat}

theorem WordAt.getElem? (h : WordAt line q eq w) {i : Nat} (hi : i < w.length) :
    (line)[q + i]? = some w[i] ∧ isWord w[i] = true := by
  have hpre : w <+: line.drop q := h.run ▸ takeWhile_prefix _
  have hget := prefix_iff_getElem?.mp hpre i hi
  rw [getElem?_drop] at hget
  refine ⟨hget, ?_⟩
  have hmem : w[i] ∈ (line.drop q).takeWhile isWord := by
    rw [h.run]
    exact getElem_mem hi
  exact mem_takeWhile_imp hmem

/-- A word is maximal: its end is no character of a word. -/
theorem WordAt.stop (h : WordAt line q eq w) {c : Byte} (hc : (line)[eq]? = some c) :
    isWord c = false := by
  have hdrop : line.drop q = w ++ (line.drop q).dropWhile isWord := by
    rw [← h.run, takeWhile_append_dropWhile]
  rw [h.end_eq, ← getElem?_drop, hdrop, getElem?_append_right (Nat.le_refl _),
    Nat.sub_self, ← head?_eq_getElem?] at hc
  have hnot := head?_dropWhile_not isWord (line.drop q)
  rw [hc] at hnot
  exact hnot

theorem cstr_eq {l : List Byte} (hpre : w <+: l) (hw : ∀ c ∈ w, c ≠ 0)
    (hend : l[w.length]? = none ∨ l[w.length]? = some 0) : cstr l = w := by
  obtain ⟨r, rfl⟩ := hpre
  rw [cstr, takeWhile_append_of_pos (fun c hc => decide_eq_true (hw c hc))]
  rw [getElem?_append_right (Nat.le_refl _), Nat.sub_self] at hend
  match r with
  | [] => exact append_nil w
  | c :: r =>
    simp_all

theorem cstr_ne_zero {c : Byte} (h : c ∈ cstr buf) : c ≠ 0 := by
  have hc := mem_takeWhile_imp h
  exact of_decide_eq_true hc

/-- NULs at the ends of words leave the words alone. -/
theorem WordAt.cstr_nuls {ends : List Nat} (h : WordAt (cstr buf) q eq w) (hmem : eq ∈ ends)
    (hends : ∀ e ∈ ends, ∀ c, (cstr buf)[e]? = some c → isWord c = false) :
    cstr ((nuls ends buf).drop q) = w := by
  have hline : cstr buf <+: buf := takeWhile_prefix _
  have hkeep : ∀ {i : Nat} {c}, (cstr buf)[i]? = some c → buf[i]? = some c := by
    intro i c hc
    obtain ⟨hi, rfl⟩ := List.getElem?_eq_some_iff.mp hc
    exact prefix_iff_getElem?.mp hline i hi
  refine cstr_eq (prefix_iff_getElem?.mpr fun i hi => ?_) (fun c hc => ?_) ?_
  · obtain ⟨hget, hword⟩ := h.getElem? hi
    rw [getElem?_drop, getElem?_nuls, if_neg, hkeep hget]
    grind
  · obtain ⟨i, hi, rfl⟩ := getElem_of_mem hc
    exact cstr_ne_zero (mem_of_getElem? (h.getElem? hi).1)
  · rw [getElem?_drop, ← h.end_eq, getElem?_nuls, if_pos hmem]
    cases buf[eq]? with
    | none => exact .inl rfl
    | some c => exact .inr rfl

/-- The pointers of a command, after `nulterminate`, are its words. -/
theorem Reads.tree_nuls {c : Cmd} {t : Tree} {ends : List Nat} (h : Reads (cstr buf) c t)
    (hsub : c.ends ⊆ ends)
    (hends : ∀ e ∈ ends, ∀ c, (cstr buf)[e]? = some c → isWord c = false) :
    c.tree (nuls ends buf) = t := by
  induction h with
  | exec h =>
    refine congrArg Tree.exec ?_
    induction h with
    | nil => rfl
    | cons hw _ ih =>
      rw [map_cons, hw.cstr_nuls (hsub mem_cons_self) hends,
        ih fun _ he => hsub (mem_cons_of_mem _ he)]
  | redir _ hw ih =>
    rw [Cmd.tree, ih fun _ he => hsub (mem_append_left _ he),
      hw.cstr_nuls (hsub (mem_append_right _ mem_cons_self)) hends]
  | pipe _ _ ihl ihr | list _ _ ihl ihr =>
    rw [Cmd.tree, ihl fun _ he => hsub (mem_append_left _ he),
      ihr fun _ he => hsub (mem_append_right _ he)]
  | back _ ih => rw [Cmd.tree, ih hsub]

theorem Reads.ends {c : Cmd} {t : Tree} (h : Reads line c t) :
    ∀ e ∈ c.ends, ∀ ch, (line)[e]? = some ch → isWord ch = false := by
  induction h with
  | exec h =>
    induction h with
    | nil => exact fun _ he => nomatch he
    | cons hw _ ih =>
      intro e he ch hch
      rcases mem_cons.mp he with rfl | he
      · exact hw.stop hch
      · exact ih e he ch hch
  | redir _ hw ih =>
    intro e he ch hch
    rcases mem_append.mp he with he | he
    · exact ih e he ch hch
    · obtain rfl := mem_singleton.mp he
      exact hw.stop hch
  | pipe _ _ ihl ihr | list _ _ ihl ihr =>
    intro e he
    exact (mem_append.mp he).elim (ihl e) (ihr e)
  | back _ ih => exact ih

end Words

/-- `parsecmd` over tokens. -/
def Tokens.cmd (n : Nat) (ts : List Tok) : Except Stop Tree := do
  let (t, rest) ← Tokens.line n ts
  if rest = [] then .ok t else .error (.panic .malformed)

theorem parsecmd_refines (buf : List Byte) :
    (parsecmd buf).map (fun (c, buf) => c.tree buf) =
      Tokens.cmd (4 * (cstr buf).length + 4) (tokens (cstr buf)) := by
  have h := (@parse_sim (cstr buf) (4 * (cstr buf).length + 4)).1 (Nat.zero_le _)
  rw [show tokensAt (cstr buf) 0 = tokens (cstr buf) from rfl] at h
  unfold parsecmd Tokens.cmd
  dsimp only
  match hp : parseline (cstr buf) (4 * (cstr buf).length + 4) 0,
    ht : Tokens.line (4 * (cstr buf).length + 4) (tokens (cstr buf)) with
  | .error e, .error e' =>
    rw [hp, ht] at h
    rw [show e = e' from h]
    rfl
  | .ok _, .error _ | .error _, .ok _ =>
    rw [hp, ht] at h
    exact h.elim
  | .ok (c, s), .ok (t, ts) =>
    rw [hp, ht] at h
    obtain ⟨hr, hs, rfl⟩ := h
    have hskip := skip_eq_length_iff hs
    show Except.map _ (if skip (strchr whitespace) (cstr buf) s ≠ (cstr buf).length then _ else _) =
      if tokensAt (cstr buf) s = [] then _ else _
    by_cases hnil : tokensAt (cstr buf) s = []
    · rw [if_neg (not_not.mpr (hskip.mpr hnil)), if_pos hnil]
      show Except.ok (c.tree (nulterminate c buf)) = _
      rw [nulterminate_eq, hr.tree_nuls (List.Subset.refl _) hr.ends]
    · rw [if_pos (fun h => hnil (hskip.mp h)), if_neg hnil]
      rfl

end Xv6.Sh
