import Xv6.Bio
import Xv6.LogDisk
import Xv6.LogGroup

/-!
# The buffer cache under the log

Processes use the cache through `bread`, `bwrite`, `log_write` and
`brelse`; the process that ends the last operation runs `commit()`,
which uses the cache itself. This file puts `bio.c` and `log.c` into one
step function: each lock-protected section is one action, and so is each
store into a buffer and each block transfer.

`commit()` is its own control-flow graph (`CommitPc`), one node per call
in `write_log`, `write_head` and `install_trans`; `CommitPc.instr` says
which call a node makes. The counters and the in-memory header are those
of `LogSys`.

Clients follow the protocol: a process stores into a buffer it holds,
and gives it up only after `bwrite` or `log_write` has followed its last
store. Recovery is such a client: it stores into home blocks, writes
them with `bwrite` and takes no pins.
-/

namespace Xv6

open Function StepSystem List Option

/-! ## `commit()` as a graph of calls -/

/-- What the committing process is about to do. `t` is `tail`, `erase`
tells the second `write_head` from the first. -/
inductive CommitPc where
  | test
  | wlTo (t : Nat)
  | wlFrom (t : Nat) (dst : BufId)
  | wlMove (t : Nat) (dst src : BufId)
  | wlWrite (t : Nat) (dst src : BufId)
  | wlRelFrom (t : Nat) (dst src : BufId)
  | wlRelTo (t : Nat) (dst : BufId)
  | whRead (erase : Bool)
  | whFill (erase : Bool) (i : BufId)
  | whWrite (erase : Bool) (i : BufId)
  | whRel (erase : Bool) (i : BufId)
  | whDone (erase : Bool)
  | itLog (t : Nat)
  | itDst (t : Nat) (l : BufId)
  | itMove (t : Nat) (l d : BufId)
  | itWrite (t : Nat) (l d : BufId)
  | itUnpin (t : Nat) (l d : BufId)
  | itRelLog (t : Nat) (l d : BufId)
  | itRelDst (t : Nat) (d : BufId)
  | clear

/-- One call of `commit()`, with where it goes on. -/
inductive Instr where
  | bread (b : Nat) (k : BufId → CommitPc)
  /-- `memmove(dst->data, src->data, BSIZE)`. -/
  | move (dst src : BufId) (k : CommitPc)
  /-- Store the in-memory header into the buffer. -/
  | setHead (i : BufId) (k : CommitPc)
  | bwrite (i : BufId) (k : CommitPc)
  | bunpin (i : BufId) (k : CommitPc)
  | brelse (i : BufId) (k : CommitPc)
  /-- The next phase of `commit()`. -/
  | phase (k : CommitPc)

/-- The code of `commit()` for the log at `lg` and the header `lh`. -/
def CommitPc.instr (lg : LogArea) (lh : List Nat) : CommitPc → Instr
  | .test => .phase (if lh.length > 0 then .wlTo 0 else .test)
  -- write_log
  | .wlTo t =>
      if t < lh.length then .bread (lg.start + t + 1) (.wlFrom t) else .phase (.whRead false)
  | .wlFrom t dst => .bread (lh.getD t 0) (.wlMove t dst)
  | .wlMove t dst src => .move dst src (.wlWrite t dst src)
  | .wlWrite t dst src => .bwrite dst (.wlRelFrom t dst src)
  | .wlRelFrom t dst src => .brelse src (.wlRelTo t dst)
  | .wlRelTo t dst => .brelse dst (.wlTo (t + 1))
  -- write_head
  | .whRead e => .bread lg.start (.whFill e)
  | .whFill e i => .setHead i (.whWrite e i)
  | .whWrite e i => .bwrite i (.whRel e i)
  | .whRel e i => .brelse i (.whDone e)
  | .whDone e => .phase (if e then .test else .itLog 0)
  -- install_trans(0)
  | .itLog t => if t < lh.length then .bread (lg.start + t + 1) (.itDst t) else .phase .clear
  | .itDst t l => .bread (lh.getD t 0) (.itMove t l)
  | .itMove t l d => .move d l (.itWrite t l d)
  | .itWrite t l d => .bwrite d (.itUnpin t l d)
  | .itUnpin t l d => .bunpin d (.itRelLog t l d)
  | .itRelLog t l d => .brelse l (.itRelDst t d)
  | .itRelDst t d => .brelse d (.itLog (t + 1))
  | .clear => .phase (.whRead true)

/-- The phase of `LogSys` a node belongs to. -/
def CommitPc.phase : CommitPc → CommitPhase
  | .test => .test
  | .wlTo _ | .wlFrom .. | .wlMove .. | .wlWrite .. | .wlRelFrom .. | .wlRelTo .. => .writeLog
  | .whRead e | .whFill e _ | .whWrite e _ | .whRel e _ | .whDone e =>
      if e then .eraseHead else .writeHead
  | .itLog _ | .itDst .. | .itMove .. | .itWrite .. | .itUnpin .. | .itRelLog .. | .itRelDst .. =>
      .installTrans
  | .clear => .clear

/-- The blocks of the header `lh` that `install_trans` has not unpinned
yet. -/
def CommitPc.pend (lh : List Nat) : CommitPc → List Nat
  | .itLog t | .itDst t _ | .itMove t .. | .itWrite t .. | .itUnpin t .. => lh.drop t
  | .itRelLog t .. | .itRelDst t _ => lh.drop (t + 1)
  | .clear => []
  | _ => lh

/-! ## State and actions -/

inductive BioPanic where
  | noBuffers
  | bwrite
  | brelse
deriving DecidableEq, Repr

/-- The message `panic` prints. -/
def BioPanic.message : BioPanic → String
  | .noBuffers => "bget: no buffers"
  | .bwrite => "bwrite"
  | .brelse => "brelse"

structure BioSys where
  cache : Bcache
  ops : LogSys
  call : Nat → Call
  /-- The place of the committing process in `commit()`. -/
  pc : CommitPc
  hist : BioHist
  panic : Option BioPanic

/-- At boot: an empty cache over the disk `d`. -/
def BioSys.init (lg : LogArea) (d : Disk) : BioSys :=
  { cache := binit d
    ops := LogSys.init lg.size
    call := fun _ => .idle
    pc := .test
    hist := .init d
    panic := none }

inductive BioAct where
  /-- `p` calls `bread(ROOTDEV, b)`: the section of `bget`. -/
  | bread (p b : Nat)
  /-- `p` gets the sleep-lock in `bget`. -/
  | acquire (p : Nat)
  /-- `bread` returns to `p`. -/
  | fill (p : Nat)
  | modify (p : Nat) (i : BufId) (d : Block)
  | bwrite (p : Nat) (i : BufId)
  | logWrite (p : Nat) (i : BufId)
  /-- `p` calls `brelse`: the sleep-lock is released. -/
  | brelse (p : Nat) (i : BufId)
  /-- The section of `brelse` under `bcache.lock`. -/
  | drop (p : Nat)
  | beginOp (p : Nat)
  | endOp (p : Nat)
  | kill (p : Nat)
  /-- The next call of `commit()`. -/
  | commit (p : Nat)
  | endCommit (p : Nat)

namespace BioSys

variable (s : BioSys) (p : Nat)

/-- `p` is running file-system code outside `commit()` and outside any
call modelled here. -/
def Client : Prop :=
  s.call p = .idle ∧ (s.ops.pc p = .idle ∨ s.ops.pc p = .inOp)

instance : Decidable (s.Client p) := inferInstanceAs (Decidable (_ ∧ _))

def bget (b : Nat) (k : BufId → CommitPc) : BioSys :=
  match s.cache.bget ROOTDEV b with
  | some (i, c) =>
      { s with cache := c, call := update s.call p (.locking i b), pc := k i }
  | none => { s with panic := some .noBuffers }

/-- A store into a held buffer. -/
def store (i : BufId) (d : Block) (k : CommitPc) : BioSys :=
  { s with cache := s.cache.store i d, hist := s.hist.touch i, pc := k }

def bwrite (i : BufId) (k : CommitPc) : BioSys :=
  if (s.cache.buf i).holder = some p then
    { s with cache := s.cache.bwrite i, hist := s.hist.save i, pc := k }
  else { s with panic := some .bwrite }

/-- The first half of `brelse`; the history takes what the holder leaves. -/
def brelse (i : BufId) (committer : Bool) (k : CommitPc) : BioSys :=
  let x := s.cache.buf i
  if x.holder = some p then
    { s with
      cache := s.cache.releasesleep i
      call := update s.call p (.dropping i)
      hist := s.hist.settle i x committer
      pc := k }
  else { s with panic := some .brelse }

/-- `log_write` of buffer `i`. -/
def logWrite (i : BufId) : BioSys :=
  let b := (s.cache.buf i).blockno
  let ops := Xv6.logWrite s.ops b
  if ops.panic.isSome then { s with ops := ops }
  else if b ∈ s.ops.log.lh then { s with ops := ops, hist := s.hist.save i }
  else
    { s with
      ops := ops
      cache := s.cache.bpin i
      hist := { s.hist.save i with
        taken := update s.hist.taken b (s.hist.taken b + 1) } }

def bunpin (i : BufId) (k : CommitPc) : BioSys :=
  let b := (s.cache.buf i).blockno
  { s with
    cache := s.cache.bunpin i
    hist := { s.hist with dropped := update s.hist.dropped b (s.hist.dropped b + 1) }
    pc := k }

/-- One call of `commit()`, in phase `ph`. -/
def exec (ph : CommitPhase) : Instr → BioSys
  | .bread b k => s.bget p b k
  | .move dst src k => s.store dst (s.cache.buf src).data k
  | .setHead i k => s.store i (encodeHead (s.cache.buf i).data s.ops.log.lh) k
  | .bwrite i k => s.bwrite p i k
  | .bunpin i k => s.bunpin i k
  | .brelse i k => s.brelse p i true k
  | .phase k => { s with ops := commitStep s.ops p ph, pc := k }

/-- The blocks of the header whose pin has not been dropped yet. -/
def pend : List Nat := s.pc.pend s.ops.log.lh

end BioSys

def bioStep (lg : LogArea) (s : BioSys) (a : BioAct) : Option BioSys :=
  if s.panic.isSome ∨ s.ops.panic.isSome then none
  else
    match a with
    | .bread p b => if s.Client p then some (s.bget p b fun _ => s.pc) else none
    | .acquire p =>
        match s.call p with
        | .locking i b =>
            if (s.cache.buf i).holder = none then
              some { s with
                cache := s.cache.acquiresleep p i
                call := update s.call p (.filling i b) }
            else none
        | _ => none
    | .fill p =>
        match s.call p with
        | .filling i _ =>
            some { s with
              cache := s.cache.fill i
              call := update s.call p .idle }
        | _ => none
    | .modify p i d =>
        if s.Client p ∧ (s.cache.buf i).holder = some p then some (s.store i d s.pc) else none
    | .bwrite p i => if s.Client p then some (s.bwrite p i s.pc) else none
    | .logWrite p i =>
        if s.Client p ∧ (s.cache.buf i).holder = some p then some (s.logWrite i) else none
    | .brelse p i =>
        if s.Client p ∧ s.hist.unsaved i = false then some (s.brelse p i false s.pc) else none
    | .drop p =>
        match s.call p with
        | .dropping i =>
            some { s with
              cache := s.cache.drop i
              call := update s.call p .idle }
        | _ => none
    | .beginOp p =>
        if s.call p = .idle then
          (logStep s.ops (.beginOp p)).map fun ops => { s with ops := ops }
        else none
    | .endOp p =>
        if s.call p = .idle then
          (logStep s.ops (.endOp p)).map fun ops => { s with ops := ops }
        else none
    | .kill p => (logStep s.ops (.kill p)).map fun ops => { s with ops := ops }
    | .commit p =>
        match s.call p, s.ops.pc p with
        | .idle, .commit ph => some (s.exec p ph (s.pc.instr lg s.ops.log.lh))
        | _, _ => none
    | .endCommit p =>
        if s.call p = .idle then
          (logStep s.ops (.endCommit p)).map fun ops => { s with ops := ops }
        else none

abbrev bioRun (lg : LogArea) : BioSys → List BioAct → Option BioSys := run (bioStep lg)

/-! ## What one action can do -/

/-- The outcomes of `bget`: the block's buffer, or an unused one recycled
for it. -/
theorem Bcache.bget_cases {c c' : Bcache} {b : Nat} {i : BufId} (hl : ∀ i, i ∈ c.lru)
    (h : c.bget ROOTDEV b = some (i, c')) :
    (c.Assigned i b ∧ c' = c.set i { c.buf i with refcnt := (c.buf i).refcnt + 1 })
    ∨ ((∀ j, ¬c.Assigned j b) ∧ (c.buf i).refcnt = 0
      ∧ c' = c.set i ((c.buf i).recycled ROOTDEV b)) := by
  unfold Bcache.bget at h
  split at h
  · rename_i j hj
    obtain ⟨rfl, rfl⟩ := h
    have := find?_some hj
    simp only [decide_eq_true_eq] at this
    exact .inl ⟨this, rfl⟩
  · rename_i hnone
    split at h
    · rename_i j hj
      obtain ⟨rfl, rfl⟩ := h
      have := find?_some hj
      simp only [decide_eq_true_eq] at this
      refine .inr ⟨fun k hk => ?_, this, rfl⟩
      have := find?_eq_none.mp hnone k (hl k)
      simp only [decide_eq_true_eq] at this
      exact this hk
    · cases h

/-- The outcomes of `log_write`'s section for a block. -/
theorem logWrite_cases (s : LogSys) (b : Nat) :
    (∃ x, x ≠ .logCommitting ∧ logWrite s b = { s with panic := some x })
    ∨ 1 ≤ s.log.outstanding ∧ (s.log.lh.length : Int) < (s.log.size : Int) - 1
      ∧ (b ∈ s.log.lh ∧ logWrite s b = s
        ∨ b ∉ s.log.lh
          ∧ logWrite s b = { s with log := { s.log with lh := s.log.lh ++ [b] } }) := by
  unfold logWrite
  split
  · exact .inl ⟨_, by simp, rfl⟩
  · grind

/-- The moves of the system, clients first, then the calls of
`commit()`. -/
inductive BioMove (lg : LogArea) (s : BioSys) : BioAct → BioSys → Prop
  | panic {a : BioAct} (x : BioPanic) : BioMove lg s a { s with panic := some x }
  | logPanic {a : BioAct} {x : LogPanic} (hx : x ≠ .logCommitting) :
      BioMove lg s a { s with ops := { s.ops with panic := some x } }
  | bget {p b : Nat} {i : BufId} {c : Bcache} (hp : s.Client p)
      (hb : s.cache.bget ROOTDEV b = some (i, c)) :
      BioMove lg s (.bread p b)
        { s with cache := c, call := update s.call p (.locking i b) }
  | acquire {p b : Nat} {i : BufId} (hp : s.call p = .locking i b)
      (hh : (s.cache.buf i).holder = none) :
      BioMove lg s (.acquire p)
        { s with
          cache := s.cache.acquiresleep p i
          call := update s.call p (.filling i b) }
  | fill {p b : Nat} {i : BufId} (hp : s.call p = .filling i b) :
      BioMove lg s (.fill p)
        { s with cache := s.cache.fill i, call := update s.call p .idle }
  | modify {p : Nat} {i : BufId} {d : Block} (hp : s.Client p)
      (hh : (s.cache.buf i).holder = some p) : BioMove lg s (.modify p i d) (s.store i d s.pc)
  | bwrite {p : Nat} {i : BufId} (hp : s.Client p) (hh : (s.cache.buf i).holder = some p) :
      BioMove lg s (.bwrite p i) { s with cache := s.cache.bwrite i, hist := s.hist.save i }
  | absorbed {p : Nat} {i : BufId} (hp : s.Client p) (hh : (s.cache.buf i).holder = some p)
      (hout : 1 ≤ s.ops.log.outstanding) (hb : (s.cache.buf i).blockno ∈ s.ops.log.lh) :
      BioMove lg s (.logWrite p i) { s with hist := s.hist.save i }
  | logged {p : Nat} {i : BufId} (hp : s.Client p) (hh : (s.cache.buf i).holder = some p)
      (hout : 1 ≤ s.ops.log.outstanding)
      (hroom : (s.ops.log.lh.length : Int) < (s.ops.log.size : Int) - 1)
      (hb : (s.cache.buf i).blockno ∉ s.ops.log.lh) :
      BioMove lg s (.logWrite p i)
        { s with
          ops := { s.ops with log := { s.ops.log with
            lh := s.ops.log.lh ++ [(s.cache.buf i).blockno] } }
          cache := s.cache.bpin i
          hist := { s.hist.save i with
            taken := update s.hist.taken (s.cache.buf i).blockno
              (s.hist.taken (s.cache.buf i).blockno + 1) } }
  | brelse {p : Nat} {i : BufId} (hp : s.Client p) (hu : s.hist.unsaved i = false)
      (hh : (s.cache.buf i).holder = some p) :
      BioMove lg s (.brelse p i)
        { s with
          cache := s.cache.releasesleep i
          call := update s.call p (.dropping i)
          hist := s.hist.settle i (s.cache.buf i) false }
  | drop {p : Nat} {i : BufId} (hp : s.call p = .dropping i) :
      BioMove lg s (.drop p)
        { s with cache := s.cache.drop i, call := update s.call p .idle }
  | beginOp {p : Nat} {ops : LogSys} (hp : s.call p = .idle)
      (hm : LogMove s.ops (.beginOp p) ops) : BioMove lg s (.beginOp p) { s with ops := ops }
  | endOp {p : Nat} {ops : LogSys} (hp : s.call p = .idle)
      (hm : LogMove s.ops (.endOp p) ops) : BioMove lg s (.endOp p) { s with ops := ops }
  | kill {p : Nat} {ops : LogSys} (hm : LogMove s.ops (.kill p) ops) :
      BioMove lg s (.kill p) { s with ops := ops }
  | endCommit {p : Nat} {ops : LogSys} (hp : s.call p = .idle)
      (hm : LogMove s.ops (.endCommit p) ops) : BioMove lg s (.endCommit p) { s with ops := ops }
  | commitBget {p b : Nat} {ph : CommitPhase} {k : BufId → CommitPc} {i : BufId} {c : Bcache}
      (hp : s.call p = .idle) (hpc : s.ops.pc p = .commit ph)
      (hin : s.pc.instr lg s.ops.log.lh = .bread b k)
      (hb : s.cache.bget ROOTDEV b = some (i, c)) :
      BioMove lg s (.commit p)
        { s with cache := c, call := update s.call p (.locking i b), pc := k i }
  | commitMove {p : Nat} {ph : CommitPhase} {dst src : BufId} {k : CommitPc}
      (hp : s.call p = .idle) (hpc : s.ops.pc p = .commit ph)
      (hin : s.pc.instr lg s.ops.log.lh = .move dst src k) :
      BioMove lg s (.commit p) (s.store dst (s.cache.buf src).data k)
  | commitHead {p : Nat} {ph : CommitPhase} {i : BufId} {k : CommitPc}
      (hp : s.call p = .idle) (hpc : s.ops.pc p = .commit ph)
      (hin : s.pc.instr lg s.ops.log.lh = .setHead i k) :
      BioMove lg s (.commit p)
        (s.store i (encodeHead (s.cache.buf i).data s.ops.log.lh) k)
  | commitBwrite {p : Nat} {ph : CommitPhase} {i : BufId} {k : CommitPc}
      (hp : s.call p = .idle) (hpc : s.ops.pc p = .commit ph)
      (hin : s.pc.instr lg s.ops.log.lh = .bwrite i k) (hh : (s.cache.buf i).holder = some p) :
      BioMove lg s (.commit p)
        { s with cache := s.cache.bwrite i, hist := s.hist.save i, pc := k }
  | commitBunpin {p : Nat} {ph : CommitPhase} {i : BufId} {k : CommitPc}
      (hp : s.call p = .idle) (hpc : s.ops.pc p = .commit ph)
      (hin : s.pc.instr lg s.ops.log.lh = .bunpin i k) :
      BioMove lg s (.commit p) (s.bunpin i k)
  | commitBrelse {p : Nat} {ph : CommitPhase} {i : BufId} {k : CommitPc}
      (hp : s.call p = .idle) (hpc : s.ops.pc p = .commit ph)
      (hin : s.pc.instr lg s.ops.log.lh = .brelse i k) (hh : (s.cache.buf i).holder = some p) :
      BioMove lg s (.commit p)
        { s with
          cache := s.cache.releasesleep i
          call := update s.call p (.dropping i)
          hist := s.hist.settle i (s.cache.buf i) true
          pc := k }
  | commitPhase {p : Nat} {ph : CommitPhase} {k : CommitPc}
      (hp : s.call p = .idle) (hpc : s.ops.pc p = .commit ph)
      (hin : s.pc.instr lg s.ops.log.lh = .phase k) :
      BioMove lg s (.commit p) { s with ops := commitStep s.ops p ph, pc := k }

/-! ### Inversion, call by call -/

section Moves

variable {lg : LogArea} {s s' : BioSys} {p : Nat}

theorem logWrite_bioMove {i : BufId} (hp : s.Client p) (hh : (s.cache.buf i).holder = some p)
    (hno : s.ops.panic = none) : BioMove lg s (.logWrite p i) (s.logWrite i) := by
  unfold BioSys.logWrite
  dsimp only
  rcases logWrite_cases s.ops (s.cache.buf i).blockno with
    ⟨x, hne, hx⟩ | ⟨hout, hroom, ⟨hb, hx⟩ | ⟨hb, hx⟩⟩
  · rw [hx, if_pos (by simp)]
    exact .logPanic hne
  · rw [hx, if_neg (by simp [hno]), if_pos hb]
    exact .absorbed hp hh hout hb
  · rw [hx, if_neg (by simp [hno]), if_neg hb]
    exact .logged hp hh hout hroom hb

theorem exec_bioMove {ph : CommitPhase} (hp : s.call p = .idle) (hpc : s.ops.pc p = .commit ph) :
    BioMove lg s (.commit p) (s.exec p ph (s.pc.instr lg s.ops.log.lh)) := by
  cases hin : s.pc.instr lg s.ops.log.lh with
  | bread b k =>
    unfold BioSys.exec BioSys.bget
    dsimp only
    split
    · rename_i hb
      exact .commitBget hp hpc hin hb
    · exact .panic _
  | move dst src k => exact .commitMove hp hpc hin
  | setHead i k => exact .commitHead hp hpc hin
  | bwrite i k =>
    unfold BioSys.exec BioSys.bwrite
    dsimp only
    split
    · rename_i hh
      exact .commitBwrite hp hpc hin hh
    · exact .panic _
  | bunpin i k => exact .commitBunpin hp hpc hin
  | brelse i k =>
    unfold BioSys.exec BioSys.brelse
    dsimp only
    split
    · rename_i hh
      exact .commitBrelse hp hpc hin hh
    · exact .panic _
  | phase k => exact .commitPhase hp hpc hin

/-- An action that only runs a section of `LogSys`. -/
theorem map_ops_eq {a : LogAct}
    (h : (logStep s.ops a).map (fun ops => { s with ops := ops }) = some s') :
    ∃ ops, LogMove s.ops a ops ∧ s' = { s with ops := ops } := by
  obtain ⟨ops, hops, rfl⟩ := map_eq_some_iff.mp h
  exact ⟨ops, (logStep_move hops).2, rfl⟩

/-- **Inversion**: every enabled action is one of the moves, taken on a
machine that has not panicked. -/
theorem bioStep_move {a : BioAct} (h : bioStep lg s a = some s') :
    s.panic = none ∧ s.ops.panic = none ∧ BioMove lg s a s' := by
  unfold bioStep at h
  split at h
  · cases h
  rename_i hno
  simp only [not_or, Bool.not_eq_true, isSome_eq_false_iff, isNone_iff_eq_none]
    at hno
  refine ⟨hno.1, hno.2, ?_⟩
  cases a with
  | bread p b =>
    simp only [ite_none_right_eq_some, some.injEq] at h
    obtain ⟨hp, rfl⟩ := h
    unfold BioSys.bget
    split
    · rename_i hb
      exact .bget hp hb
    · exact .panic _
  | acquire p =>
    dsimp only at h
    split at h
    · rename_i hc
      simp only [ite_none_right_eq_some, some.injEq] at h
      obtain ⟨hh, rfl⟩ := h
      exact .acquire hc hh
    · cases h
  | fill p =>
    dsimp only at h
    split at h
    · rename_i hc
      cases h
      exact .fill hc
    · cases h
  | modify p i d =>
    simp only [ite_none_right_eq_some, some.injEq] at h
    obtain ⟨⟨hp, hh⟩, rfl⟩ := h
    exact .modify hp hh
  | bwrite p i =>
    simp only [ite_none_right_eq_some, some.injEq] at h
    obtain ⟨hp, rfl⟩ := h
    unfold BioSys.bwrite
    split
    · rename_i hh
      exact .bwrite hp hh
    · exact .panic _
  | logWrite p i =>
    grind [logWrite_bioMove]
  | brelse p i =>
    simp only [ite_none_right_eq_some, some.injEq] at h
    obtain ⟨⟨hp, hu⟩, rfl⟩ := h
    unfold BioSys.brelse
    dsimp only
    split
    · rename_i hh
      exact .brelse hp hu hh
    · exact .panic _
  | drop p =>
    dsimp only at h
    split at h
    · rename_i hc
      cases h
      exact .drop hc
    · cases h
  | beginOp p =>
    simp only [ite_none_right_eq_some] at h
    obtain ⟨hp, h⟩ := h
    obtain ⟨ops, hm, rfl⟩ := map_ops_eq h
    exact .beginOp hp hm
  | endOp p =>
    simp only [ite_none_right_eq_some] at h
    obtain ⟨hp, h⟩ := h
    obtain ⟨ops, hm, rfl⟩ := map_ops_eq h
    exact .endOp hp hm
  | kill p =>
    obtain ⟨ops, hm, rfl⟩ := map_ops_eq h
    exact .kill hm
  | commit p =>
    grind [exec_bioMove]
  | endCommit p =>
    simp only [ite_none_right_eq_some] at h
    obtain ⟨hp, h⟩ := h
    obtain ⟨ops, hm, rfl⟩ := map_ops_eq h
    exact .endCommit hp hm

end Moves

end Xv6
