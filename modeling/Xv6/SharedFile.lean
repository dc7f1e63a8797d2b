import Xv6.Cursor
import Xv6.FileRead
import Xv6.StepSystem

/-!
# Processes sharing an open file

One `struct file` of type `FD_INODE`, shared by any number of processes
that call `filewrite` and `fileread` on it. `f->off` is only used with
the inode locked: an iteration of the loop of `filewrite`, from
`begin_op` to `end_op`, is one step, and so is a `fileread`. Between the
iterations of one process the others may run, and so may the rest of
the file system.

The offset is the cursor of `Cursor.Trace`: each step that transfers
bytes moves it over the range it reads or writes, so ranges follow each
other whatever the interleaving.
-/

namespace Xv6

open Function List Nat

open ByteVec (Byte)
open Cursor (Move)

/-! ## The system -/

/-- The most one iteration of `filewrite` writes. -/
abbrev writeMax : Nat := (MAXOPBLOCKS - 1 - 1 - 2) / 2 * BSIZE

/-- A process in the loop of `filewrite`: `i` of `n` bytes are written. -/
structure WriteCall where
  src : Source
  n : Nat
  i : Nat

/-- A write call: the process, and how many it has completed before. -/
abbrev CallId := Nat × Nat

/-- A call of `filewrite` that has returned. -/
structure EndedCall where
  id : CallId
  call : WriteCall
  ret : Int

/-- The file system, the shared file, and the call each process is in.
The last three fields are history, which no step reads: the transfers so
far (a read has no owner), the write calls each process has completed,
and what they returned. -/
structure Shared where
  st : FsState
  f : OpenFile
  calls : Nat → Option WriteCall
  moves : List (Move (Option CallId) Byte)
  count : Nat → Nat
  ended : List EndedCall

inductive SharedAct where
  /-- process `p` enters `filewrite` -/
  | write (p : Nat) (src : Source) (n : Int)
  /-- one iteration of its loop -/
  | chunk (p : Nat)
  | read (p : Nat) (dst : Target) (n : Int)
  /-- something else happens in the file system -/
  | other (st : FsState)

/-- One iteration of the loop of `filewrite`: the result of `writei` and
the length asked for. -/
def filewriteChunk (sb : Superblock) (st : FsState) (f : OpenFile) (c : WriteCall) :
    Except FsPanic (Int × Nat × OpenFile × FsState) := do
  let n1 := min (c.n - c.i) writeMax
  let ip ← ilock sb st f.inum
  let (r, _, st) ← writei sb st f.inum ip (fun j => c.src (c.i + j)) f.off n1
  .ok (r, n1, if r > 0 then { f with off := (f.off + r.toNat) % 2 ^ 32 } else f, st)

/-- The transfers with one more, if there is one. -/
def Shared.moved (s : Shared) (owner : Option CallId) (r : Int) (bytes : List Byte) :
    List (Move (Option CallId) Byte) :=
  if r > 0 then s.moves ++ [⟨owner, s.f.off, bytes⟩] else s.moves

/-- `p` returns from `filewrite`. -/
def Shared.finish (s : Shared) (p : Nat) (c : WriteCall) (ret : Int) : Shared :=
  { s with
    calls := update s.calls p none
    count := update s.count p (s.count p + 1)
    ended := s.ended ++ [⟨(p, s.count p), c, ret⟩] }

def sharedStep (sb : Superblock) (s : Shared) : SharedAct → Option Shared
  | .write p src n =>
      if (s.calls p).isSome then none
      -- not writable, or nothing to write: the loop is not entered
      else if s.f.writable = false ∨ n ≤ 0 then some s
      else some { s with calls := update s.calls p (some ⟨src, n.toNat, 0⟩) }
  | .chunk p =>
      match s.calls p with
      | none => none
      | some c =>
          match filewriteChunk sb s.st s.f c with
          | .error _ => none
          | .ok (r, n1, f, st) =>
              let bytes := Source.bytes (fun j => c.src (c.i + j)) r.toNat
              let moves := s.moved (some (p, s.count p)) r bytes
              let s := { s with st := st, f := f, moves := moves }
              if r ≠ n1 then some (s.finish p c (-1))
              else
                let c := { c with i := c.i + r.toNat }
                if c.i < c.n then some { s with calls := update s.calls p (some c) }
                else some (s.finish p c c.n)
  | .read p dst n =>
      if (s.calls p).isSome then none
      else if s.f.readable = false then some s
      else
        match filereadInode sb s.st s.f dst n with
        | .error _ => none
        | .ok (r, out, f, st) =>
            some { s with st := st, f := f, moves := s.moved none r out }
  | .other st => some { s with st := st }

/-- User copies succeed, and nothing else writes or truncates the
inode. -/
def SoleAccess (sb : Superblock) (s : Shared) : SharedAct → Prop
  | .write _ src n => ∀ j < n.toNat, (src j).isSome
  | .chunk _ => True
  | .read _ dst n =>
      ∀ j < readLen (sb.dinode s.st.data s.f.inum).size s.f.off (toUint n), dst j = true
  | .other st => Consistent sb st.data ∧ (sb.dinode st.data s.f.inum).type ≠ 0 ∧
      content sb st.data s.f.inum = content sb s.st.data s.f.inum

/-! ## One transfer -/

section Transfer

variable {sb : Superblock} {st : FsState} {i off n : Nat} {src : Source}

theorem length_content (sb : Superblock) (d : Disk) (i : Nat) :
    (content sb d i).length = (sb.dinode d i).size := by
  simp [content]

theorem splice_take {α : Type} {c bs : List α} (hoff : off ≤ c.length) :
    (splice c off bs).take off = c.take off := by
  rw [splice, append_assoc, take_append_of_le_length (by simpa using hoff),
    take_take, min_self]

theorem splice_slice {α : Type} {c bs : List α} (hoff : off ≤ c.length) :
    Cursor.slice (splice c off bs) off bs.length = bs := by
  have hlen : (c.take off).length = off := by simpa using hoff
  rw [Cursor.slice, splice, append_assoc]
  nth_rewrite 1 [← hlen]
  rw [drop_left, take_left]

/-- `writei` from a mapped source: refused without effect, out of blocks,
or done. -/
theorem Consistent.writei_cases (h : Consistent sb st.data) (hi : i < sb.ninodes)
    (ht : (sb.dinode st.data i).type ≠ 0) (hoff : off < 2 ^ 32) (hn : n < 2 ^ 32)
    (hsrc : ∀ j < n, (src j).isSome) :
    writei sb st i (sb.dinode st.data i) src off n = .ok (-1, sb.dinode st.data i, st)
    ∨ (∃ e, writei sb st i (sb.dinode st.data i) src off n = .error e)
    ∨ ∃ ip' st', writei sb st i (sb.dinode st.data i) src off n = .ok ((n : Nat), ip', st')
      ∧ off ≤ (content sb st.data i).length ∧ off + n < 2 ^ 32
      ∧ content sb st'.data i = splice (content sb st.data i) off (src.bytes n)
      ∧ Consistent sb st'.data ∧ (sb.dinode st'.data i).type ≠ 0 := by
  have hl := h.owned.locked hi ht
  by_cases hr : writeRefused (sb.dinode st.data i) off n
  · exact .inl (writei_refused hoff hn hr)
  rcases hl.writei_accepted src (sb.dinode_fits st.data i) hn hr with
    ⟨tot, ip', st', d₁, ip₁, hw, hspec⟩ | ⟨herr, -⟩
  · obtain rfl := hspec.wrote.done fun j _ hj => hsrc j hj
    have hr' := hr
    unfold writeRefused at hr'
    refine .inr (.inr ⟨ip', st', hw, by rw [length_content]; omega, by omega,
      hspec.content_eq hr, hspec.consistent h hi ht hr, ?_⟩)
    rw [hspec.dinode_self, hspec.fields]
    show ip₁.type ≠ 0
    rwa [hspec.wrote.grows.type_eq]
  · exact .inr (.inl ⟨_, herr⟩)

end Transfer

/-! ## The invariant -/

/-- The transfers of call `id` are the first `i` bytes of its source, in
order, in chunks of `writeMax`. -/
structure WroteSoFar (moves : List (Move (Option CallId) Byte)) (id : CallId) (c : WriteCall) :
    Prop where
  bytes : (Cursor.ofOwner (some id) moves).flatten = c.src.bytes c.i
  chunks : (Cursor.ofOwner (some id) moves).length = (c.i + writeMax - 1) / writeMax

structure SharedInv (sb : Superblock) (pos : Nat) (s : Shared) : Prop where
  consistent : Consistent sb s.st.data
  inum_lt : s.f.inum < sb.ninodes
  type : (sb.dinode s.st.data s.f.inum).type ≠ 0
  off_lt : s.f.off < 2 ^ 32
  trace : Cursor.Trace pos s.moves (content sb s.st.data s.f.inum) s.f.off
  /-- the calls of the transfers: completed ones, or the one in progress -/
  owners : ∀ m ∈ s.moves, ∀ id ∈ m.owner,
    id.2 < s.count id.1 ∨ id.2 = s.count id.1 ∧ (s.calls id.1).isSome
  running : ∀ p, ∀ c ∈ s.calls p, c.i ≤ c.n ∧ (c.i < c.n → c.i % writeMax = 0)
    ∧ (∀ j < c.n, (c.src j).isSome) ∧ WroteSoFar s.moves (p, s.count p) c
  ended : ∀ e ∈ s.ended, e.id.2 < s.count e.id.1 ∧ WroteSoFar s.moves e.id e.call
    ∧ (e.ret = e.call.n ∧ e.call.i = e.call.n ∨ e.ret = -1 ∧ e.call.i < e.call.n)

/-- A call in its loop has something left to write. -/
def Shared.Busy (s : Shared) : Prop := ∀ p, ∀ c ∈ s.calls p, c.i < c.n

section Steps

variable {sb : Superblock} {pos p : Nat} {s s' : Shared} {c : WriteCall}
  {moves : List (Move (Option CallId) Byte)} {id : CallId} {o : Option CallId}

theorem WroteSoFar.push_ne (h : WroteSoFar moves id c) (hne : o ≠ some id) (start : Nat)
    (bs : List Byte) : WroteSoFar (moves ++ [⟨o, start, bs⟩]) id c := by
  refine ⟨?_, ?_⟩
  · rw [Cursor.ofOwner_push_ne hne, h.bytes]
  · rw [Cursor.ofOwner_push_ne hne, h.chunks]

theorem Source.bytes_add (src : Source) (n m : Nat) :
    src.bytes (n + m) = src.bytes n ++ Source.bytes (fun j => src (n + j)) m := by
  rw [Source.bytes, range_add, map_append, map_map]
  rfl

theorem WroteSoFar.push_self (h : WroteSoFar moves id c) (hmod : c.i % writeMax = 0) {k : Nat}
    (hk : 0 < k) (hle : k ≤ writeMax) (start : Nat) :
    WroteSoFar (moves ++ [⟨some id, start, Source.bytes (fun j => c.src (c.i + j)) k⟩]) id
      { c with i := c.i + k } := by
  refine ⟨?_, ?_⟩
  · rw [Cursor.ofOwner_push_self, flatten_append, h.bytes, Source.bytes_add]
    simp
  · grind [Cursor.ofOwner_push_self, length_append, h.chunks, length_singleton]

/-- The rest of the file system takes a step. -/
theorem SharedInv.other (h : SharedInv sb pos s) {st : FsState} (hcons : Consistent sb st.data)
    (htype : (sb.dinode st.data s.f.inum).type ≠ 0)
    (hsame : content sb st.data s.f.inum = content sb s.st.data s.f.inum) :
    SharedInv sb pos { s with st := st } :=
  ⟨hcons, h.inum_lt, htype, h.off_lt, by
    show Cursor.Trace pos s.moves (content sb st.data s.f.inum) s.f.off
    rw [hsame]
    exact h.trace, h.owners, h.running, h.ended⟩

/-- A transfer of `bytes` at the offset, by the call of `p` or by none. -/
theorem SharedInv.push (h : SharedInv sb pos s) (st : FsState) (o : Option CallId) (p : Nat)
    (calls : Nat → Option WriteCall) (bytes : List Byte)
    (hcons : Consistent sb st.data) (htype : (sb.dinode st.data s.f.inum).type ≠ 0)
    (hoff : s.f.off + bytes.length < 2 ^ 32)
    (hbefore : (content sb st.data s.f.inum).take s.f.off
      = (content sb s.st.data s.f.inum).take s.f.off)
    (hbytes : Cursor.slice (content sb st.data s.f.inum) s.f.off bytes.length = bytes)
    (ho : ∀ id ∈ o, id = (p, s.count p) ∧ (s.calls p).isSome)
    (hcalls : ∀ q, q ≠ p ∨ o = none → calls q = s.calls q)
    (hp : (s.calls p).isSome → (calls p).isSome)
    (hrun : o ≠ none → ∀ c ∈ calls p, c.i ≤ c.n ∧ (c.i < c.n → c.i % writeMax = 0)
      ∧ (∀ j < c.n, (c.src j).isSome)
      ∧ WroteSoFar (s.moves ++ [⟨o, s.f.off, bytes⟩]) (p, s.count p) c) :
    SharedInv sb pos { s with
      st := st
      f := { s.f with off := s.f.off + bytes.length }
      moves := s.moves ++ [⟨o, s.f.off, bytes⟩]
      calls := calls } := by
  have hsome : ∀ q, (s.calls q).isSome → (calls q).isSome := fun q hq => by grind
  refine ⟨hcons, h.inum_lt, htype, hoff, h.trace.push o hbefore hbytes, fun m hm id hid => ?_,
    fun q c hc => ?_, fun e he => ?_⟩
  · rcases mem_append.mp hm with hm | hm
    · exact (h.owners m hm id hid).imp_right fun ⟨h1, h2⟩ => ⟨h1, hsome _ h2⟩
    · grind
  · by_cases hq : q = p ∧ o ≠ none
    · grind
    · have hq' : q ≠ p ∨ o = none := by tauto
      have hc' : c ∈ s.calls q := hcalls q hq' ▸ hc
      obtain ⟨h1, h2, h3, h4⟩ := h.running q c hc'
      refine ⟨h1, h2, h3, h4.push_ne ?_ ..⟩
      rintro rfl
      simp_all
  · obtain ⟨h1, h2, h3⟩ := h.ended e he
    refine ⟨h1, h2.push_ne ?_ .., h3⟩
    rintro rfl
    simp_all

/-- `p` returns: its call becomes an ended one. -/
theorem SharedInv.finish (h : SharedInv sb pos s) (hc : s.calls p = some c) {ret : Int}
    (hret : ret = c.n ∧ c.i = c.n ∨ ret = -1 ∧ c.i < c.n) :
    SharedInv sb pos (s.finish p c ret) := by
  obtain ⟨-, -, -, hwrote⟩ := h.running p c hc
  refine ⟨h.consistent, h.inum_lt, h.type, h.off_lt, h.trace, fun m hm id hid => ?_,
    fun q c' hc' => ?_, fun e he => ?_⟩
  · by_cases hp : id.1 = p
    · left
      show id.2 < update s.count p (s.count p + 1) id.1
      rw [hp, update_self]
      rcases h.owners m hm id hid with hlt | ⟨heq, -⟩
      · rw [hp] at hlt
        omega
      · rw [hp] at heq
        omega
    · show id.2 < update s.count p (s.count p + 1) id.1
        ∨ id.2 = update s.count p (s.count p + 1) id.1
          ∧ (update s.calls p none id.1).isSome
      rw [update_of_ne hp, update_of_ne hp]
      exact h.owners m hm id hid
  · have hq : q ≠ p := by
      rintro rfl
      have : c' ∈ update s.calls q none q := hc'
      grind
    have hc'' : c' ∈ update s.calls p none q := hc'
    rw [update_of_ne hq] at hc''
    show _ ∧ _ ∧ _ ∧ WroteSoFar s.moves (q, update s.count p (s.count p + 1) q) c'
    rw [update_of_ne hq]
    exact h.running q c' hc''
  · have hcount : ∀ q, s.count q ≤ update s.count p (s.count p + 1) q := fun q => by grind
    rcases mem_append.mp he with he | he
    · obtain ⟨h1, h2⟩ := h.ended e he
      exact ⟨lt_of_lt_of_le h1 (hcount _), h2⟩
    · obtain rfl := mem_singleton.mp he
      refine ⟨?_, hwrote, hret⟩
      show s.count p < update s.count p (s.count p + 1) p
      rw [update_self]
      omega

/-- An iteration of `filewrite` whose copies succeed. -/
theorem filewriteChunk_cases (h : SharedInv sb pos s)
    (hsrc : ∀ j < c.n, (c.src j).isSome) :
    filewriteChunk sb s.st s.f c = .ok (-1, min (c.n - c.i) writeMax, s.f, s.st)
    ∨ (∃ e, filewriteChunk sb s.st s.f c = .error e)
    ∨ ∃ st', filewriteChunk sb s.st s.f c
        = .ok ((min (c.n - c.i) writeMax : Nat), min (c.n - c.i) writeMax,
          { s.f with off := s.f.off + min (c.n - c.i) writeMax }, st')
      ∧ s.f.off ≤ (content sb s.st.data s.f.inum).length
      ∧ s.f.off + min (c.n - c.i) writeMax < 2 ^ 32
      ∧ content sb st'.data s.f.inum = splice (content sb s.st.data s.f.inum) s.f.off
        (Source.bytes (fun j => c.src (c.i + j)) (min (c.n - c.i) writeMax))
      ∧ Consistent sb st'.data ∧ (sb.dinode st'.data s.f.inum).type ≠ 0 := by
  have hle : min (c.n - c.i) writeMax ≤ 3072 := min_le_right ..
  have hle' : min (c.n - c.i) writeMax ≤ c.n - c.i := min_le_left ..
  generalize hn1 : min (c.n - c.i) writeMax = n1 at hle hle'
  simp only [filewriteChunk, ilock, if_neg h.type, bind, Except.bind, hn1]
  have hsrc' : ∀ j < n1, (c.src (c.i + j)).isSome := fun j hj => hsrc _ (by omega)
  rcases h.consistent.writei_cases h.inum_lt h.type h.off_lt
    (lt_of_le_of_lt hle (by decide)) hsrc' with hw | ⟨e, hw⟩ | ⟨ip', st', hw, h1, h2, h3, h4, h5⟩
  · left
    rw [hw]
    rfl
  · right; left
    exact ⟨e, by rw [hw]⟩
  · simp_all [hw, Int.toNat_natCast, mod_eq_of_lt h2, mod_eq_of_lt]

/-- The call of `p` writes `n1` bytes. -/
theorem SharedInv.advance (h : SharedInv sb pos s) (hc : s.calls p = some c) (hlt : c.i < c.n)
    {st : FsState} {n1 : Nat} (hn1 : n1 = min (c.n - c.i) writeMax)
    (hoff : s.f.off ≤ (content sb s.st.data s.f.inum).length) (hoff' : s.f.off + n1 < 2 ^ 32)
    (hcont : content sb st.data s.f.inum = splice (content sb s.st.data s.f.inum) s.f.off
      (Source.bytes (fun j => c.src (c.i + j)) n1))
    (hcons : Consistent sb st.data) (htype : (sb.dinode st.data s.f.inum).type ≠ 0) :
    SharedInv sb pos { s with
      st := st
      f := { s.f with off := s.f.off + n1 }
      moves := s.moves ++
        [⟨some (p, s.count p), s.f.off, Source.bytes (fun j => c.src (c.i + j)) n1⟩]
      calls := update s.calls p (some { c with i := c.i + n1 }) } := by
  obtain ⟨-, hmod, hsrc, hwrote⟩ := h.running p c hc
  have hlen : (Source.bytes (fun j => c.src (c.i + j)) n1).length = n1 := by simp [Source.bytes]
  have hpush := h.push st (some (p, s.count p)) p
    (update s.calls p (some { c with i := c.i + n1 }))
    (Source.bytes (fun j => c.src (c.i + j)) n1) hcons htype (by rwa [hlen])
    (by rw [hcont, splice_take hoff]) (by rw [hcont, splice_slice hoff])
    (fun id hid => ⟨(Option.mem_some.mp hid).symm, by rw [hc]; rfl⟩)
    (fun q hq => update_of_ne (hq.resolve_right nofun) ..)
    (fun _ => by rw [update_self]; rfl) fun _ c' hc' => ?_
  · rwa [hlen] at hpush
  · rw [update_self, Option.mem_some] at hc'
    subst hc'
    have hmod' : c.i % 3072 = 0 := hmod hlt
    have hn1' : n1 = min (c.n - c.i) 3072 := hn1
    refine ⟨by dsimp only; omega, fun hlt' => ?_, hsrc,
      hwrote.push_self (hmod hlt) (by omega) (show n1 ≤ 3072 by omega) _⟩
    grind

theorem Shared.Busy.finish (hb : s.Busy) {t : Shared} (ht : ∀ q, q ≠ p → t.calls q = s.calls q)
    (c : WriteCall) (ret : Int) : (t.finish p c ret).Busy := by
  intro q c' hc'
  have hc' : c' ∈ update t.calls p none q := hc'
  by_cases hq : q = p
  · grind
  · rw [update_of_ne hq, ht q hq] at hc'
    exact hb q c' hc'

/-- One iteration of the loop keeps the invariant. -/
theorem SharedInv.chunk (h : SharedInv sb pos s) (hb : s.Busy)
    (hs : sharedStep sb s (.chunk p) = some s') : SharedInv sb pos s' ∧ s'.Busy := by
  cases hc : s.calls p with
  | none =>
    simp only [sharedStep, hc] at hs
    cases hs
  | some c =>
    have hlt := hb p c hc
    simp only [sharedStep, hc] at hs
    rcases filewriteChunk_cases h (h.running p c hc).2.2.1 with
      hw | ⟨e, hw⟩ | ⟨st', hw, hoff, hoff', hcont, hcons, htype⟩
    · -- refused: the call returns -1
      simp only [hw, Shared.moved, if_neg (show ¬(-1 : Int) > 0 by decide)] at hs
      rw [if_pos (by omega)] at hs
      cases hs
      exact ⟨h.finish hc (.inr ⟨rfl, hlt⟩), hb.finish (fun _ _ => rfl) _ _⟩
    · simp only [hw] at hs
      cases hs
    · have hadv := h.advance hc hlt rfl hoff hoff' hcont hcons htype
      have hpos : 0 < min (c.n - c.i) writeMax := by grind
      have hle' : min (c.n - c.i) writeMax ≤ c.n - c.i := min_le_left ..
      generalize min (c.n - c.i) writeMax = n1 at *
      simp only [hw, Shared.moved, Int.toNat_natCast] at hs
      rw [if_pos (show (n1 : Int) > 0 by omega), if_neg (by omega)] at hs
      split at hs
      · rename_i hmore
        cases hs
        refine ⟨hadv, fun q c' hc' => ?_⟩
        have hc' : c' ∈ update s.calls p _ q := hc'
        by_cases hq : q = p
        · grind
        · rw [update_of_ne hq] at hc'
          exact hb q c' hc'
      · rename_i hdone
        cases hs
        have hfin := hadv.finish (p := p) (update_self ..)
          (.inl ⟨rfl, show c.i + n1 = c.n by omega⟩)
        refine ⟨?_, hb.finish (fun _ _ => rfl) { c with i := c.i + n1 } c.n⟩
        simp_all [Shared.finish]

/-- A `fileread` keeps the invariant. -/
theorem SharedInv.read (h : SharedInv sb pos s) (hb : s.Busy) {dst : Target} {n : Int}
    (hdst : ∀ j < readLen (sb.dinode s.st.data s.f.inum).size s.f.off (toUint n), dst j = true)
    (hs : sharedStep sb s (.read p dst n) = some s') : SharedInv sb pos s' ∧ s'.Busy := by
  simp only [sharedStep] at hs
  split at hs
  · cases hs
  split at hs
  · grind
  obtain ⟨m, hm, hread⟩ := filereadInode_eq h.consistent h.inum_lt h.type h.off_lt dst n
  have hsize := h.consistent.sized _ h.inum_lt h.type
  have hmax : MAXFILE * BSIZE < 2 ^ 32 := by decide
  have hn : toUint n < 2 ^ 32 := toUint_lt n
  -- what is read lies in the file
  have hend : m ≤ (sb.dinode s.st.data s.f.inum).size - s.f.off ∨ m = 0 := by grind [readLen]
  rw [← hm] at hdst
  rw [Target.reach_eq fun j hj => by rw [zero_add]; exact hdst j hj] at hread
  simp only [hread, if_true] at hs
  cases hs
  refine ⟨?_, hb⟩
  unfold Shared.moved
  by_cases h0 : 0 < m
  · have hlen : (((content sb s.st.data s.f.inum).drop s.f.off).take m).length = m := by
      rw [length_take, length_drop, length_content]
      omega
    have hpush := h.push s.st none 0 s.calls (((content sb s.st.data s.f.inum).drop s.f.off).take m)
      h.consistent h.type (by rw [hlen]; omega) rfl (by rw [hlen]; rfl) nofun (fun _ _ => rfl) id
      (fun hno => absurd rfl hno)
    grind
  · obtain rfl : m = 0 := by omega
    rw [if_neg (by decide), add_zero, mod_eq_of_lt h.off_lt]
    exact h

/-- A process enters `filewrite`. -/
theorem SharedInv.write (h : SharedInv sb pos s) (hb : s.Busy) {src : Source} {n : Int}
    (hsrc : ∀ j < n.toNat, (src j).isSome)
    (hs : sharedStep sb s (.write p src n) = some s') : SharedInv sb pos s' ∧ s'.Busy := by
  simp only [sharedStep] at hs
  split at hs
  · cases hs
  rename_i hidle
  split at hs
  · grind
  rename_i hn
  cases hs
  -- no transfer has the number of the new call
  have hnone : Cursor.ofOwner (some (p, s.count p)) s.moves = [] := by
    rw [Cursor.ofOwner, map_eq_nil_iff, filter_eq_nil_iff]
    intro m hm hown
    rcases h.owners m hm (p, s.count p) (by simpa using hown) with hlt | ⟨-, hrun⟩
    · exact lt_irrefl _ hlt
    · exact hidle hrun
  have hother : ∀ q c, c ∈ update s.calls p (some ⟨src, n.toNat, 0⟩) q →
      q = p ∧ c = ⟨src, n.toNat, 0⟩ ∨ c ∈ s.calls q := fun q c hc => by
    by_cases hq : q = p
    · grind
    · grind
  refine ⟨⟨h.consistent, h.inum_lt, h.type, h.off_lt, h.trace, fun m hm id hid => ?_,
    fun q c hc => ?_, h.ended⟩, fun q c hc => ?_⟩
  · refine (h.owners m hm id hid).imp_right fun hid => ⟨hid.1, ?_⟩
    grind
  · rcases hother q c hc with ⟨rfl, rfl⟩ | hc
    · exact ⟨zero_le _, fun _ => rfl, hsrc, by rw [hnone]; rfl,
        by rw [hnone]; show 0 = (0 + 3072 - 1) / 3072; decide⟩
    · exact h.running q c hc
  · rcases hother q c hc with ⟨rfl, rfl⟩ | hc
    · show 0 < n.toNat
      omega
    · exact hb q c hc

theorem sharedStep_inv {a : SharedAct} (h : SharedInv sb pos s ∧ s.Busy) (ha : SoleAccess sb s a)
    (hs : sharedStep sb s a = some s') : SharedInv sb pos s' ∧ s'.Busy := by
  obtain ⟨h, hb⟩ := h
  cases a with
  | write p src n => exact h.write hb ha hs
  | chunk p => exact h.chunk hb hs
  | read p dst n => exact h.read hb ha hs
  | other st =>
    cases hs
    exact ⟨h.other ha.1 ha.2.1 ha.2.2, hb⟩

end Steps

/-! ## Whole runs -/

/-- An open inode, before any of the calls. -/
structure SharedStart (sb : Superblock) (s : Shared) : Prop where
  consistent : Consistent sb s.st.data
  inum_lt : s.f.inum < sb.ninodes
  type : (sb.dinode s.st.data s.f.inum).type ≠ 0
  off_lt : s.f.off < 2 ^ 32
  idle : ∀ p, s.calls p = none
  moves : s.moves = []
  ended : s.ended = []

theorem SharedStart.inv {sb : Superblock} {s : Shared} (h : SharedStart sb s) :
    SharedInv sb s.f.off s ∧ s.Busy := by
  refine ⟨⟨h.consistent, h.inum_lt, h.type, h.off_lt, ?_, ?_, ?_, ?_⟩, ?_⟩
  · rw [h.moves]
    exact .nil _ _
  · simp [h.moves]
  · intro p c hc
    rw [h.idle p] at hc
    cases hc
  · simp [h.ended]
  · intro p c hc
    rw [h.idle p] at hc
    cases hc

/-- **Processes sharing an open file never lose or overlap data.** In
every run in which user copies succeed and nothing else writes or
truncates the inode:

* the ranges transferred are consecutive from the first offset, so they
  are disjoint, and the offset is the first one plus all bytes
  transferred;
* what was written or read in a range is still there at the end;
* a write call returns `n` or `-1`; its bytes appear in order, all of
  them if it returned `n` and a first part of them otherwise, also while
  the call is in progress;
* a write of at most `writeMax` bytes is a single transfer. -/
theorem shared_transfers_consecutive {sb : Superblock} {s₀ s : Shared} {acts : List SharedAct}
    (h₀ : SharedStart sb s₀) (hsole : StepSystem.Along (sharedStep sb) (SoleAccess sb) s₀ acts)
    (hrun : StepSystem.run (sharedStep sb) s₀ acts = some s) :
    Cursor.Consecutive s₀.f.off s.moves
      ∧ s.moves.Pairwise (fun m m' => m.start + m.items.length ≤ m'.start)
      ∧ s.f.off = s₀.f.off + Cursor.total s.moves
      ∧ (∀ m ∈ s.moves, Cursor.slice (content sb s.st.data s.f.inum) m.start m.items.length
        = m.items)
      ∧ (∀ p, ∀ c ∈ s.calls p,
        (Cursor.ofOwner (some (p, s.count p)) s.moves).flatten = c.src.bytes c.i)
      ∧ (∀ e ∈ s.ended, (Cursor.ofOwner (some e.id) s.moves).flatten = e.call.src.bytes e.call.i
        ∧ (e.ret = e.call.n ∧ e.call.i = e.call.n ∨ e.ret = -1 ∧ e.call.i < e.call.n))
      ∧ (∀ e ∈ s.ended, e.ret = e.call.n → 0 < e.call.n → e.call.n ≤ writeMax →
        Cursor.ofOwner (some e.id) s.moves = [e.call.src.bytes e.call.n]) := by
  obtain ⟨h, -⟩ := StepSystem.run_invariant_along
    (fun h ha hs => @sharedStep_inv sb s₀.f.off _ _ _ h ha hs) h₀.inv hsole hrun
  refine ⟨h.trace.consecutive, h.trace.consecutive.pairwise, h.trace.now_eq, h.trace.kept,
    fun p c hc => (h.running p c hc).2.2.2.bytes,
    fun e he => ⟨(h.ended e he).2.1.bytes, (h.ended e he).2.2⟩, fun e he hret hpos hle => ?_⟩
  obtain ⟨-, hwrote, hend⟩ := h.ended e he
  have hi : e.call.i = e.call.n := by omega
  have hchunks := hwrote.chunks
  have hbytes := hwrote.bytes
  rw [hi] at hchunks hbytes
  have hle' : e.call.n ≤ 3072 := hle
  have hone : (e.call.n + writeMax - 1) / writeMax = 1 := by grind
  obtain ⟨bs, hbs⟩ := length_eq_one_iff.mp (hchunks.trans hone)
  rw [hbs] at hbytes ⊢
  rw [← hbytes, flatten_singleton]

/-! ## A reader and a writer -/

/-- The file of the full disk, open for reading and writing. -/
def sharedFile (off : Nat) : OpenFile := ⟨.inode, true, true, 1, off, 0⟩

/-- With no call in progress. -/
def oneShared : Shared where
  st := fullImage
  f := sharedFile 0
  calls := fun _ => none
  moves := []
  count := fun _ => 0
  ended := []

/-- One byte written in place. -/
theorem fullImage_write (off : Nat) (hoff : off < 1024) (b : Byte) :
    ∃ st, writei fullSuper fullImage 1 fullFile (fun _ => some b) off 1 = .ok (1, fullFile, st) := by
  have hdiv : off / BSIZE = 0 := div_eq_of_lt hoff
  have hmap : bmap fullSuper fullImage fullFile 0 = .ok (5, fullFile, fullImage) :=
    bmap_mapped (by decide) (by rw [fullFile_slotVal]; decide)
  have hchunk : chunk 1 0 off = 1 := by
    show min 1 (1024 - off % 1024) = 1
    omega
  have hsize : fullFile.size = 1024 := rfl
  have hlen : ¬(copyBytes (fun _ => some b) 0 1).length < 1 := lt_irrefl 1
  rw [writei, if_neg (by omega), if_neg (by show ¬(off + 1) % 2 ^ 32 > 274432; omega), writeLoop,
    dif_pos (by decide), hdiv]
  simp only [hmap, bind, Except.bind, hchunk, if_neg hlen]
  rw [writeLoop, dif_neg (by decide)]
  simp only [if_neg (show ¬off + 1 > fullFile.size by omega)]
  exact ⟨_, rfl⟩

/-- A process with one byte to write. -/
def oneByte (i : Nat) : WriteCall := ⟨fun _ => some 7, 1, i⟩

/-- Process 0 starts a write, process 1 reads three bytes, and process 0
writes after them. -/
theorem oneShared_run :
    ∃ s, StepSystem.run (sharedStep fullSuper) oneShared
        [.write 0 (oneByte 0).src 1, .read 1 (fun _ => true) 3, .chunk 0] = some s ∧
      s.ended = [⟨(0, 0), oneByte 1, 1⟩] ∧ s.f.off = 4 := by
  have hlock : ilock fullSuper fullImage 1 = .ok (fullSuper.dinode fullImage.data 1) := by
    rw [ilock, if_neg fullImage_type]
  obtain ⟨m, hm, hread⟩ := filereadInode_eq (f := sharedFile 0) fullImage_consistent (by decide)
    fullImage_type (by decide) (fun _ => true) 3
  obtain rfl : m = 3 := by
    rw [hm, show (sharedFile 0).inum = 1 from rfl, fullImage_file]
    decide
  rw [Target.reach_eq fun _ _ => rfl, if_pos rfl, if_pos rfl] at hread
  obtain ⟨st, hw⟩ := fullImage_write 3 (by decide) 7
  rw [← fullImage_file] at hw
  have hchunk : filewriteChunk fullSuper fullImage (sharedFile 3) (oneByte 0)
      = .ok (1, 1, sharedFile 4, st) := by
    show (ilock fullSuper fullImage 1 >>= fun ip =>
      writei fullSuper fullImage 1 ip (fun _ => some 7) 3 1 >>= _) = _
    rw [hlock]
    show (writei fullSuper fullImage 1 (fullSuper.dinode fullImage.data 1) (fun _ => some 7) 3 1
      >>= _) = _
    rw [hw]
    rfl
  let s₁ : Shared := { oneShared with
    calls := update oneShared.calls 0 (some (oneByte 0)) }
  let s₂ : Shared := { s₁ with
    f := sharedFile 3
    moves := [⟨none, 0, ((content fullSuper fullImage.data 1).drop 0).take 3⟩] }
  have h₁ : sharedStep fullSuper oneShared (.write 0 (oneByte 0).src 1) = some s₁ := rfl
  have h₂ : sharedStep fullSuper s₁ (.read 1 (fun _ => true) 3) = some s₂ := by
    show (match filereadInode fullSuper fullImage (sharedFile 0) (fun _ => true) 3 with
      | .error _ => none
      | .ok (r, out, f, st) => some { s₁ with st := st, f := f, moves := s₁.moved none r out }) = _
    rw [hread]
    rfl
  have h₃ : ∃ s, sharedStep fullSuper s₂ (.chunk 0) = some s ∧
      s.ended = [⟨(0, 0), oneByte 1, 1⟩] ∧ s.f.off = 4 := by
    have hcall : s₂.calls 0 = some (oneByte 0) := rfl
    have hchunk' : filewriteChunk fullSuper s₂.st s₂.f (oneByte 0) = .ok (1, 1, sharedFile 4, st) :=
      hchunk
    simp only [sharedStep, hcall, hchunk']
    exact ⟨_, rfl, rfl, rfl⟩
  obtain ⟨s, hs, hended, hoff⟩ := h₃
  exact ⟨s, StepSystem.run_cons.mpr ⟨s₁, h₁, StepSystem.run_cons.mpr ⟨s₂, h₂,
    StepSystem.run_cons.mpr ⟨s, hs, rfl⟩⟩⟩, hended, hoff⟩

theorem shared_transfers_read_write :
    ∃ s, StepSystem.run (sharedStep fullSuper) oneShared
        [.write 0 (oneByte 0).src 1, .read 1 (fun _ => true) 3, .chunk 0] = some s ∧
      s.f.off = 4 ∧ Cursor.Consecutive 0 s.moves ∧
      Cursor.ofOwner (some (0, 0)) s.moves = [[7]] := by
  obtain ⟨s, hrun, hended, hoff⟩ := oneShared_run
  have hsole : StepSystem.Along (sharedStep fullSuper) (SoleAccess fullSuper) oneShared
      [.write 0 (oneByte 0).src 1, .read 1 (fun _ => true) 3, .chunk 0] :=
    ⟨fun _ _ => rfl, fun _ _ => ⟨fun _ _ => rfl, fun _ _ => ⟨trivial, fun _ _ => trivial⟩⟩⟩
  obtain ⟨hcons, -, -, -, -, -, hone⟩ := shared_transfers_consecutive
    ⟨fullImage_consistent, by decide, fullImage_type, by decide, fun _ => rfl, rfl, rfl⟩ hsole hrun
  have hmem : (⟨(0, 0), oneByte 1, 1⟩ : EndedCall) ∈ s.ended := by grind
  exact ⟨s, hrun, hoff, hcons, hone _ hmem rfl (by decide) (by decide)⟩

end Xv6
