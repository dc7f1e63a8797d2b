import Xv6.FsContent
import Xv6.Pipe

/-!
# `fileread`

One call of `fileread` on a pipe, the console or an inode. The same
`int n` goes to all three; `piperead` and `consoleread` compare it as a
signed number, `readi` takes it as a `uint`.

A negative `n` is then a length near `2^32`. If `off + n` wraps below
`off` nothing is read, but if the file offset is smaller than `-n` it
does not wrap: the length is clamped to the rest of the file, and all of
it is stored at an address whose caller asked for nothing.
-/

namespace Xv6

open Option Nat

open ByteVec (Byte)

/-! ## The console -/

abbrev INPUT_BUF : Nat := 128

/-- The input side of `cons`, without the edit index, which only the
interrupt handler uses. -/
structure Console where
  buf : Fin INPUT_BUF → Byte
  r : UInt32
  w : UInt32

/-- The inner loop of `consoleread`. Each time it finds no input it takes
one element of `wakes`: whether the process has been killed, and if not
the console it finds when it has slept. The result says whether there is
input; `none` while the process sleeps. -/
def consoleWait : List (Bool × Console) → Console →
    Option (Bool × Console × List (Bool × Console))
  | wakes, cons =>
      if cons.r = cons.w then
        match wakes with
        | [] => none
        | (true, _) :: wakes => some (false, cons, wakes)
        | (false, cons) :: wakes => consoleWait wakes cons
      else some (true, cons, wakes)

/-- The outer loop of `consoleread`, with `n` bytes of `target` to go:
how many are left (`none` when killed), the bytes stored, the console. -/
def consolereadLoop (dst : Target) (target : Nat) : Nat → List (Bool × Console) → Console →
    Option (Option Nat × List Byte × Console)
  | 0, _, cons => some (some 0, [], cons)
  | n + 1, wakes, cons =>
      match consoleWait wakes cons with
      | none => none
      | some (false, cons, _) => some (none, [], cons)
      | some (true, cons, wakes) =>
          let c := cons.buf (Fin.ofNat INPUT_BUF cons.r.toNat)
          let cons' := { cons with r := cons.r + 1 }
          -- ^D ends the input; it is left for the next call if this one has bytes
          if c = 4 then some (some (n + 1), [], if n + 1 < target then cons else cons')
          else if dst (target - (n + 1)) = true then
            if c = 10 then some (some n, [c], cons')
            else (consolereadLoop dst target n wakes cons').map fun (m, out, cons) =>
              (m, c :: out, cons)
          else some (some (n + 1), [], cons')

/-- `consoleread`. With `n ≤ 0` the loop is not entered, and `target - n`
is 0 as a `uint`. -/
def consoleread (dst : Target) (n : Int) (wakes : List (Bool × Console)) (cons : Console) :
    Option (Int × List Byte × Console) :=
  (consolereadLoop dst n.toNat n.toNat wakes cons).map fun (m, out, cons) =>
    (match m with
      | none => -1
      | some m => (n.toNat : Int) - m, out, cons)

/-! ## `fileread` -/

abbrev CONSOLE : Int := 1

inductive OpenKind where
  | none
  | pipe
  | inode
  | device
deriving DecidableEq

/-- `struct file` without its reference count: `inum` is the inode of
`ip`, `off` a `uint`, `major` a `short`. -/
structure OpenFile where
  type : OpenKind
  readable : Bool
  writable : Bool
  inum : Nat
  off : Nat
  major : Int

/-- What a call of `fileread` sees of the rest of the system: the file
system, the pipe of `f->pipe`, the console, and what it finds when it
has slept on the last two. -/
structure ReadEnv where
  sb : Superblock
  st : FsState
  pi : Pipe
  killed : Bool
  pipeWakes : List (Pipe × Bool)
  cons : Console
  consoleWakes : List (Bool × Console)

inductive ReadEnd where
  | asleep
  | panic
  | returned (ret : Int) (out : List Byte) (f : OpenFile)

/-- `int` to `uint`. -/
def toUint (n : Int) : Nat := (n % 2 ^ 32).toNat

/-- The read through an inode, and the update of `f->off`. -/
def filereadInode (sb : Superblock) (st : FsState) (f : OpenFile) (dst : Target) (n : Int) :
    Except FsPanic (Int × List Byte × OpenFile × FsState) := do
  let ip ← ilock sb st f.inum
  let (r, out, _, st) ← readi sb st ip dst f.off (toUint n)
  .ok (r, out, if r > 0 then { f with off := (f.off + r.toNat) % 2 ^ 32 } else f, st)

/-- `fileread`: the result, the bytes stored from `addr` on, and the
file. `devsw` has a `read` function for the console only. -/
def fileread (E : ReadEnv) (f : OpenFile) (dst : Target) (n : Int) : ReadEnd :=
  if f.readable = false then .returned (-1) [] f
  else
    match f.type with
    | .pipe =>
        match piperead dst n E.pipeWakes E.pi E.killed with
        | none => .asleep
        | some (r, out, _) => .returned r out f
    | .device =>
        if f.major < 0 ∨ f.major ≥ NDEV ∨ f.major ≠ CONSOLE then .returned (-1) [] f
        else
          match consoleread dst n E.consoleWakes E.cons with
          | none => .asleep
          | some (r, out, _) => .returned r out f
    | .inode =>
        match filereadInode E.sb E.st f dst n with
        | .error _ => .panic
        | .ok (r, out, f, _) => .returned r out f
    | .none => .panic

/-! ## What a read stores -/

/-- A read that delivers no more than was asked for: its result and the
bytes it stores stay within `max n 0`, and a negative `n` leaves the
offset alone. -/
structure AsksNoMore (n : Int) (f : OpenFile) (ret : Int) (out : List Byte) (f' : OpenFile) :
    Prop where
  ret : ret = -1 ∨ 0 ≤ ret ∧ ret ≤ max n 0
  stored : (out.length : Int) ≤ max n 0
  offset : n < 0 → f'.off = f.off

theorem pipereadLoop_le (dst : Target) (n : Nat) : ∀ (i : Nat) (pi : Pipe),
    (pipereadLoop dst n i pi).1 ≤ i + n ∧ (pipereadLoop dst n i pi).2.1.length ≤ n := by
  induction n with
  | zero => intro i pi; exact ⟨le_refl _, le_refl _⟩
  | succ n ih =>
    grind [pipereadLoop]

variable {dst : Target} {n : Int}

/-- A pipe delivers no more than was asked for. -/
theorem piperead_asksNoMore {wakes : List (Pipe × Bool)} {pi : Pipe} {killed : Bool} {r : Int}
    {out : List Byte} {q : Option Pipe} (f : OpenFile)
    (h : piperead dst n wakes pi killed = some (r, out, q)) : AsksNoMore n f r out f := by
  obtain ⟨w, -, hw⟩ := map_eq_some_iff.mp h
  cases w with
  | none =>
    constructor <;> grind
  | some pi =>
    obtain ⟨h1, h2⟩ := pipereadLoop_le dst n.toNat 0 pi
    constructor <;> grind

/-- What the loop of `consoleread` leaves and stores. -/
theorem consolereadLoop_le {target : Nat} (n : Nat) :
    ∀ {wakes : List (Bool × Console)} {cons cons' : Console} {m : Option Nat} {out : List Byte},
    consolereadLoop dst target n wakes cons = some (m, out, cons') →
    out.length ≤ n ∧ ∀ k ∈ m, k ≤ n := by
  induction n with
  | zero =>
    rintro wakes cons cons' m out ⟨⟩
    exact ⟨le_refl _, by simp⟩
  | succ n ih =>
    intro wakes cons cons' m out h
    rw [consolereadLoop] at h
    split at h
    · cases h
    · grind
    · dsimp only at h
      split at h
      · grind
      split at h
      · split at h
        · grind
        · obtain ⟨⟨m', out', c'⟩, hrec, heq⟩ := map_eq_some_iff.mp h
          grind
      · grind

theorem consoleread_asksNoMore {wakes : List (Bool × Console)} {cons cons' : Console} {r : Int}
    {out : List Byte} (f : OpenFile) (h : consoleread dst n wakes cons = some (r, out, cons')) :
    AsksNoMore n f r out f := by
  obtain ⟨⟨m, out', c'⟩, hrun, heq⟩ := map_eq_some_iff.mp h
  obtain ⟨hlen, hleft⟩ := consolereadLoop_le n.toNat hrun
  obtain ⟨rfl, rfl, -⟩ := heq
  refine ⟨?_, by omega, fun _ => rfl⟩
  cases m with
  | none => exact .inl rfl
  | some m =>
    have := hleft m rfl
    exact .inr ⟨by dsimp only; omega, by dsimp only; omega⟩

/-! ## Reads through an inode -/

/-- A negative length that does not make `off + n` wrap, with something
of the file left and a destination that starts in a mapped page. -/
def Overreads (sb : Superblock) (st : FsState) (f : OpenFile) (dst : Target) (n : Int) : Prop :=
  f.readable = true ∧ f.type = .inode ∧ n < 0 ∧ f.off + n < 0 ∧
    f.off < (sb.dinode st.data f.inum).size ∧ dst 0 = true

theorem toUint_lt (n : Int) : toUint n < 2 ^ 32 := by
  unfold toUint
  omega

theorem toUint_of_nonneg (h0 : 0 ≤ n) (h : n < 2 ^ 31) : (toUint n : Int) = n := by
  unfold toUint
  omega

theorem toUint_of_neg (h0 : n < 0) (h : -2 ^ 31 ≤ n) : (toUint n : Int) = n + 2 ^ 32 := by
  unfold toUint
  omega

/-- The length `readi` works with, for an `int` length. -/
theorem readLen_toUint {size off : Nat} (hsize : size ≤ MAXFILE * BSIZE) (hoff : off < 2 ^ 32)
    (hlo : -2 ^ 31 ≤ n) (hhi : n < 2 ^ 31) :
    (0 ≤ n → (readLen size off (toUint n) : Int) ≤ n) ∧
      (n < 0 → readLen size off (toUint n) = if off + n < 0 then size - off else 0) := by
  unfold readLen
  constructor
  · intro h0
    have hn := toUint_of_nonneg h0 hhi
    grind
  · intro h0
    have hn := toUint_of_neg h0 hlo
    grind

theorem Target.reach_eq_zero {n : Nat} (h : dst 0 = false) : dst.reach 0 n = 0 := by
  cases n with
  | zero => rfl
  | succ n => simp [Target.reach, List.range_succ_eq_map, h]

theorem Target.reach_pos {n : Nat} (hn : 0 < n) (h : dst 0 = true) : 0 < dst.reach 0 n := by
  obtain ⟨n, rfl⟩ : ∃ m, n = m + 1 := ⟨n - 1, by omega⟩
  simp [Target.reach, List.range_succ_eq_map, h]

/-- A read through an inode returns, and with which bytes. -/
theorem filereadInode_eq {sb : Superblock} {st : FsState} {f : OpenFile} (h : Consistent sb st.data)
    (hi : f.inum < sb.ninodes) (ht : (sb.dinode st.data f.inum).type ≠ 0) (hoff : f.off < 2 ^ 32)
    (dst : Target) (n : Int) :
    ∃ m, m = readLen (sb.dinode st.data f.inum).size f.off (toUint n) ∧
      filereadInode sb st f dst n = .ok (if dst.reach 0 m = m then (m : Int) else -1,
        ((content sb st.data f.inum).drop f.off).take (dst.reach 0 m),
        if dst.reach 0 m = m then { f with off := (f.off + m) % 2 ^ 32 } else f, st) := by
  obtain ⟨m, hm, hread⟩ := h.readi_reach dst hi ht hoff (toUint_lt n)
  refine ⟨m, hm, ?_⟩
  simp only [filereadInode, ilock, if_neg ht, bind, Except.bind, hread]
  by_cases hall : dst.reach 0 m = m
  · simp_all [hall, Int.toNat_natCast, add_zero, mod_eq_of_lt hoff, mod_eq_of_lt]
  · grind

/-- Through an inode, no more is delivered than was asked for exactly
when the length is not a negative one that `readi` takes for a large
one. -/
theorem filereadInode_asksNoMore_iff {sb : Superblock} {st : FsState} {f : OpenFile}
    (h : Consistent sb st.data) (hi : f.inum < sb.ninodes)
    (ht : (sb.dinode st.data f.inum).type ≠ 0) (hr : f.readable = true) (hk : f.type = .inode)
    (hoff : f.off < 2 ^ 32) (dst : Target) (hlo : -2 ^ 31 ≤ n) (hhi : n < 2 ^ 31) :
    ∃ ret out f', filereadInode sb st f dst n = .ok (ret, out, f', st) ∧
      (AsksNoMore n f ret out f' ↔ ¬Overreads sb st f dst n) := by
  obtain ⟨m, hm, hread⟩ := filereadInode_eq h hi ht hoff dst n
  obtain ⟨hpos, hneg⟩ := readLen_toUint (h.sized _ hi ht) hoff hlo hhi
  have hreach := dst.reach_le 0 m
  refine ⟨_, _, _, hread, ?_⟩
  rcases Int.lt_or_le n 0 with hn | hn
  · have hm' := hneg hn
    by_cases hover : Overreads sb st f dst n
    · -- the first byte is stored
      obtain ⟨-, -, -, hwrap, hleft, hdst⟩ := hover
      rw [if_pos hwrap] at hm'
      have h1 := Target.reach_pos (n := m) (by omega) hdst
      have hlen : (content sb st.data f.inum).length = (sb.dinode st.data f.inum).size := by
        simp [content]
      refine ⟨fun hno => ?_, fun hno => absurd ⟨hr, hk, hn, hwrap, hleft, hdst⟩ hno⟩
      have hstored := hno.stored
      grind
    · refine ⟨fun _ => hover, fun _ => ?_⟩
      by_cases hm0 : m = 0
      · constructor <;> grind
      · have hdst : dst 0 = false := by
          rw [← Bool.not_eq_true]
          intro hdst
          refine hover ⟨hr, hk, hn, ?_, ?_, hdst⟩ <;> split at hm' <;> omega
        rw [Target.reach_eq_zero hdst, if_neg (by omega), if_neg (by omega)]
        exact ⟨.inl rfl, by simp, fun _ => rfl⟩
  · refine ⟨fun _ hover => absurd hover.2.2.1 (by omega), fun _ => ⟨?_, ?_, fun h0 => by omega⟩⟩
    · omega
    · rw [List.length_take]
      omega

/-- **What `read` delivers.** On every open file, for every `int n`, the
call is asleep in a pipe or in the console, or it returns; and then it
has delivered no more than was asked for, unless it is a read through an
inode with `n < 0` and `off + n < 0` before the end of the file. -/
theorem fileread_asksNoMore_iff (E : ReadEnv) (f : OpenFile) (dst : Target) (n : Int)
    (hopen : f.type ≠ .none) (hoff : f.off < 2 ^ 32) (hlo : -2 ^ 31 ≤ n) (hhi : n < 2 ^ 31)
    (hfs : Consistent E.sb E.st.data)
    (hino : f.type = .inode →
      f.inum < E.sb.ninodes ∧ (E.sb.dinode E.st.data f.inum).type ≠ 0) :
    (fileread E f dst n = .asleep ∧ (f.type = .pipe ∨ f.type = .device)) ∨
      ∃ ret out f', fileread E f dst n = .returned ret out f' ∧
        (AsksNoMore n f ret out f' ↔ ¬Overreads E.sb E.st f dst n) := by
  unfold fileread
  by_cases hr : f.readable = false
  · rw [if_pos hr]
    refine .inr ⟨_, _, _, rfl, fun _ hover => ?_, fun _ => ⟨.inl rfl, by simp, fun _ => rfl⟩⟩
    rw [hover.1] at hr
    cases hr
  have hr' : f.readable = true := by simpa using hr
  -- only an inode can be read too far
  have hsafe : f.type ≠ .inode → ∀ {ret out}, AsksNoMore n f ret out f →
      (AsksNoMore n f ret out f ↔ ¬Overreads E.sb E.st f dst n) := fun hk _ _ hno =>
    ⟨fun _ hover => hk hover.2.1, fun _ => hno⟩
  rw [if_neg hr]
  split
  · rename_i hk
    split
    · exact .inl ⟨rfl, .inl hk⟩
    · rename_i hread
      exact .inr ⟨_, _, _, rfl, hsafe (by rw [hk]; decide) (piperead_asksNoMore f hread)⟩
  · rename_i hk
    split
    · exact .inr ⟨_, _, _, rfl, hsafe (by rw [hk]; decide) ⟨.inl rfl, by simp, fun _ => rfl⟩⟩
    · split
      · exact .inl ⟨rfl, .inr hk⟩
      · rename_i hread
        exact .inr ⟨_, _, _, rfl, hsafe (by rw [hk]; decide) (consoleread_asksNoMore f hread)⟩
  · rename_i hk
    obtain ⟨hi, ht⟩ := hino hk
    obtain ⟨ret, out, f', hread, hiff⟩ :=
      filereadInode_asksNoMore_iff hfs hi ht hr' hk hoff dst hlo hhi
    grind
  · rename_i hk
    exact absurd hk hopen

/-! ## The file of `fullImage` -/

/-- A system with one file of 1024 bytes, an empty pipe and no input. -/
def oneFile : ReadEnv where
  sb := fullSuper
  st := fullImage
  pi := ⟨fun _ => 0, 0, 0, true, true⟩
  killed := false
  pipeWakes := []
  cons := ⟨fun _ => 0, 0, 0⟩
  consoleWakes := []

/-- The file, opened for reading, at offset `off`. -/
def opened (off : Nat) : OpenFile := ⟨.inode, true, false, 1, off, 0⟩

theorem fullImage_type : (fullSuper.dinode fullImage.data 1).type ≠ 0 := by
  decide

/-- With the offset at 100, a read of `-10` bytes transfers nothing. -/
theorem fileread_asksNoMore_wraps :
    ∃ ret out f', fileread oneFile (opened 100) (fun _ => true) (-10) = .returned ret out f' ∧
      AsksNoMore (-10) (opened 100) ret out f' := by
  rcases fileread_asksNoMore_iff oneFile (opened 100) (fun _ => true) (-10) (by decide) (by decide)
    (by decide) (by decide) fullImage_consistent fun _ => ⟨by decide, fullImage_type⟩ with
    ⟨-, hk⟩ | ⟨ret, out, f', hread, hiff⟩
  · exact absurd hk (by decide)
  · refine ⟨ret, out, f', hread, hiff.mpr fun hover => ?_⟩
    exact absurd hover.2.2.2.1 (by decide)

/-- With the offset at 0, a read of `-1` bytes stores the whole file and
returns 1024. -/
theorem fileread_negative_reads_all :
    ∃ out, fileread oneFile (opened 0) (fun _ => true) (-1) = .returned 1024 out (opened 1024) ∧
      out.length = 1024 ∧ ¬AsksNoMore (-1) (opened 0) 1024 out (opened 1024) := by
  obtain ⟨m, hm, hread⟩ := filereadInode_eq (f := opened 0) fullImage_consistent (by decide)
    fullImage_type (by decide) (fun _ => true) (-1)
  have hm' : m = 1024 := by
    rw [hm, show (opened 0).inum = 1 from rfl, fullImage_file]
    decide
  subst hm'
  rw [Target.reach_eq fun _ _ => rfl, if_pos rfl, if_pos rfl] at hread
  refine ⟨((content fullSuper fullImage.data 1).drop 0).take 1024, ?_, ?_, fun hno => ?_⟩
  · show (match filereadInode fullSuper fullImage (opened 0) (fun _ => true) (-1) with
      | .error _ => ReadEnd.panic
      | .ok (r, out, f, _) => .returned r out f) = _
    rw [hread]
    rfl
  · rw [List.length_take, List.length_drop, content, List.length_map, List.length_range,
      fullImage_file]
    decide
  · exact absurd hno.ret (by decide)

end Xv6
