import Xv6.Layout
import Xv6.WriteSeq

/-!
# The on-disk redo log

`log.c` as a program over the disk: `writeLog`, `writeHead`,
`installTrans`, `readHead`, `recoverFromLog` and `commit`, each issuing
its block writes one `bwrite` at a time. `BlockState` records the disk,
the buffers that are newer than the disk, and the writes issued so far,
so that a crash between two block writes is a prefix of `trace`.

The header block is kept in its stored form. `writeHead` stores `n` and
the first `n` block numbers over whatever the header block held, so the
stale entries of an older transaction stay behind it on the disk.
-/

namespace Xv6

open Function WriteSeq List

/-! ## Blocks through the cache -/

/-- The disk under the buffer cache. `dirty b` is the cached contents of
block `b` when they are newer than the disk; a clean buffer needs no
record, reading it is reading the disk. -/
structure BlockState where
  disk : Disk
  dirty : Nat → Option Block
  trace : List (Nat × Block)

/-- After a crash or at boot: no buffer is cached. -/
def BlockState.fresh (d : Disk) : BlockState :=
  { disk := d, dirty := fun _ => none, trace := [] }

def bread (s : BlockState) (b : Nat) : Block := (s.dirty b).getD (s.disk b)

/-- Write `v` to block `b`: the buffer is clean afterwards. -/
def bwrite (s : BlockState) (b : Nat) (v : Block) : BlockState :=
  { disk := update s.disk b v
    dirty := update s.dirty b none
    trace := s.trace ++ [(b, v)] }

/-! ## The log header -/

/-- The position of the log on the disk, from the superblock. -/
structure LogArea where
  start : Nat
  size : Nat
  /-- There is a header block. -/
  size_pos : 0 < size

/-- Block `b` belongs to the log: the header block or a log block. -/
def LogArea.Holds (lg : LogArea) (b : Nat) : Prop :=
  lg.start ≤ b ∧ b < lg.start + lg.size

instance (lg : LogArea) (b : Nat) : Decidable (lg.Holds b) :=
  inferInstanceAs (Decidable (_ ∧ _))

/-- `lh->n`, as the C `int` it is. -/
def headN (hb : Block) : Int := toInt32 (hb.word 4 0)

/-- `lh->block[i]`. -/
def headBlock (hb : Block) (i : Nat) : Nat := hb.word 4 (4 + 4 * i)

/-- Store block numbers into `hb->block[i..]`. -/
def setHeadBlocks : Block → Nat → List Nat → Block
  | hb, _, [] => hb
  | hb, i, b :: bs => setHeadBlocks (hb.setWord 4 (4 + 4 * i) b) (i + 1) bs

/-- The header block `write_head` writes for the in-memory header `lh`
over the header block `hb` it read. -/
def encodeHead (hb : Block) (lh : List Nat) : Block :=
  setHeadBlocks (hb.setWord 4 0 lh.length) 0 lh

/-! ## `log.c` -/

/-- Read the header: the in-memory header is the list `block[0..n)`. A
negative `n` runs the copy loop zero times. -/
def readHead (lg : LogArea) (s : BlockState) : List Nat :=
  let hb := bread s lg.start
  (range (headN hb).toNat).map (headBlock hb)

def writeHead (lg : LogArea) (lh : List Nat) (s : BlockState) : BlockState :=
  bwrite s lg.start (encodeHead (bread s lg.start) lh)

/-- The loop of `write_log` from `tail` on: copy each cached home block
to its log block. -/
def writeLogFrom (lg : LogArea) : Nat → List Nat → BlockState → BlockState
  | _, [], s => s
  | tail, b :: lh, s =>
      writeLogFrom lg (tail + 1) lh (bwrite s (lg.start + tail + 1) (bread s b))

def writeLog (lg : LogArea) (lh : List Nat) (s : BlockState) : BlockState :=
  writeLogFrom lg 0 lh s

/-- The loop of `install_trans` from `tail` on: copy each log block to
its home. -/
def installTransFrom (lg : LogArea) : Nat → List Nat → BlockState → BlockState
  | _, [], s => s
  | tail, b :: lh, s =>
      installTransFrom lg (tail + 1) lh (bwrite s b (bread s (lg.start + tail + 1)))

def installTrans (lg : LogArea) (lh : List Nat) (s : BlockState) : BlockState :=
  installTransFrom lg 0 lh s

def recoverFromLog (lg : LogArea) (s : BlockState) : BlockState :=
  writeHead lg [] (installTrans lg (readHead lg s) s)

def commit (lg : LogArea) (lh : List Nat) (s : BlockState) : BlockState :=
  if lh.length > 0 then
    writeHead lg [] (installTrans lg lh (writeHead lg lh (writeLog lg lh s)))
  else s

/-! ## Crashes -/

/-- The disk when recovery from `d` crashes after `k` of its writes. -/
def crashedRecovery (lg : LogArea) (d : Disk) (k : Nat) : Disk :=
  crashed d (recoverFromLog lg (.fresh d)).trace k

/-- The disk after one recovery attempt for each entry of `ks`, the
attempt crashing after that many of its writes. -/
def crashedRecoveries (lg : LogArea) (d : Disk) (ks : List Nat) : Disk :=
  ks.foldl (crashedRecovery lg) d

/-- The disk after a recovery that completes (`initlog`). -/
def initlog (lg : LogArea) (d : Disk) : Disk := (recoverFromLog lg (.fresh d)).disk

/-! ## What each phase writes -/

theorem bread_bwrite (s : BlockState) (b : Nat) (v : Block) :
    bread (bwrite s b v) = update (bread s) b v := by
  funext c
  by_cases h : c = b
  · subst h; simp [bread, bwrite]
  · simp [bread, bwrite, update_of_ne h]

/-- `s` has issued `ws` since `s₀`: the trace grew by `ws`, and both the
disk and what `bread` returns took them. -/
structure Issued (s₀ s : BlockState) (ws : List (Nat × Block)) : Prop where
  trace : s.trace = s₀.trace ++ ws
  disk : s.disk = applyWrites s₀.disk ws
  view : bread s = applyWrites (bread s₀) ws

theorem Issued.refl (s : BlockState) : Issued s s [] := ⟨by simp, rfl, rfl⟩

theorem Issued.bwrite (s : BlockState) (b : Nat) (v : Block) :
    Issued s (bwrite s b v) [(b, v)] := ⟨rfl, rfl, bread_bwrite s b v⟩

theorem Issued.trans {s₀ s₁ s₂ : BlockState} {ws vs : List (Nat × Block)}
    (h : Issued s₀ s₁ ws) (h' : Issued s₁ s₂ vs) : Issued s₀ s₂ (ws ++ vs) :=
  ⟨by rw [h'.trace, h.trace, append_assoc],
   by rw [h'.disk, h.disk, applyWrites_append],
   by rw [h'.view, h.view, applyWrites_append]⟩

/-- What `write_log` writes when the cached contents of block `b` are
`data b`. -/
def logWrites (lg : LogArea) (data : Nat → Block) : Nat → List Nat → List (Nat × Block)
  | _, [] => []
  | tail, b :: lh => (lg.start + tail + 1, data b) :: logWrites lg data (tail + 1) lh

/-- What `install_trans` writes when the log block of `b` holds `data b`. -/
def homeWrites (data : Nat → Block) (lh : List Nat) : List (Nat × Block) :=
  lh.map fun b => (b, data b)

@[simp] theorem homeWrites_targets (data : Nat → Block) (lh : List Nat) :
    (homeWrites data lh).map Prod.fst = lh := by
  simp [homeWrites, Function.comp_def]

@[simp] theorem homeWrites_length (data : Nat → Block) (lh : List Nat) :
    (homeWrites data lh).length = lh.length := by
  simp [homeWrites]

@[simp] theorem logWrites_length (lg : LogArea) (data : Nat → Block) (tail : Nat)
    (lh : List Nat) : (logWrites lg data tail lh).length = lh.length := by
  induction lh generalizing tail with
  | nil => rfl
  | cons b lh ih => simp [logWrites, ih]

variable {data : Nat → Block} {lh : List Nat} {lg : LogArea} {hb : Block}

theorem logWrites_congr (lg : LogArea) {data' : Nat → Block} (h : ∀ b ∈ lh, data b = data' b) :
    ∀ tail, logWrites lg data tail lh = logWrites lg data' tail lh := by
  induction lh with
  | nil => intro _; rfl
  | cons b lh ih =>
    simp_all [logWrites, h b (mem_cons_self ..)]

/-- The targets of `write_log` are the log blocks `tail + 1, …`. -/
theorem mem_logWrites_targets {a : Nat} :
    ∀ {tail}, a ∈ (logWrites lg data tail lh).map Prod.fst →
      lg.start + tail < a ∧ a ≤ lg.start + tail + lh.length := by
  induction lh with
  | nil => intro tail h; cases h
  | cons b lh ih =>
    grind [logWrites, map_cons, mem_cons, length_cons]

theorem writeLogFrom_issued :
    ∀ {tail : Nat} {s : BlockState}, tail + lh.length < lg.size →
      (∀ b ∈ lh, ¬lg.Holds b) →
      Issued s (writeLogFrom lg tail lh s) (logWrites lg (bread s) tail lh) := by
  induction lh with
  | nil => intro tail s _ _; exact Issued.refl s
  | cons b lh ih =>
    intro tail s hsize hout
    rw [length_cons] at hsize
    have hsize' : tail + 1 + lh.length < lg.size := by omega
    have hrest := @ih (tail + 1) (bwrite s (lg.start + tail + 1) (bread s b)) hsize'
      (fun c hc => hout c (mem_cons_of_mem _ hc))
    -- the home blocks still to be copied are not the log block just written
    have hdata : ∀ c ∈ lh,
        bread (bwrite s (lg.start + tail + 1) (bread s b)) c = bread s c := by
      intro c hc
      have := hout c (mem_cons_of_mem _ hc)
      rw [bread_bwrite, update_of_ne]
      rintro rfl
      exact this ⟨by omega, by omega⟩
    rw [logWrites_congr lg hdata] at hrest
    exact (Issued.bwrite s _ _).trans hrest

/-- The log blocks from `tail` on hold `data` of the blocks `lh`. -/
def Logged (lg : LogArea) (view : Nat → Block) (data : Nat → Block) :
    Nat → List Nat → Prop
  | _, [] => True
  | tail, b :: lh => view (lg.start + tail + 1) = data b ∧ Logged lg view data (tail + 1) lh

theorem Logged.congr {view view' : Nat → Block} :
    ∀ {tail : Nat}, tail + lh.length < lg.size →
      (∀ a, lg.start < a → lg.Holds a → view' a = view a) →
      Logged lg view data tail lh → Logged lg view' data tail lh := by
  induction lh with
  | nil => intro _ _ _ _; trivial
  | cons b lh ih =>
    intro tail hsize hv h
    rw [length_cons] at hsize
    refine ⟨?_, ih (by omega) hv h.2⟩
    rw [hv _ (by omega) ⟨by omega, by omega⟩]
    exact h.1

theorem logged_logWrites :
    ∀ {tail : Nat} (d : Disk),
      Logged lg (applyWrites d (logWrites lg data tail lh)) data tail lh := by
  induction lh with
  | nil => intro _ _; trivial
  | cons b lh ih =>
    intro tail d
    refine ⟨?_, ih _⟩
    rw [logWrites, applyWrites_cons, applyWrites_not_target, update_self]
    intro hm
    have := mem_logWrites_targets hm
    omega

theorem installTransFrom_issued :
    ∀ {tail : Nat} {s : BlockState}, tail + lh.length < lg.size →
      (∀ b ∈ lh, ¬lg.Holds b) → Logged lg (bread s) data tail lh →
      Issued s (installTransFrom lg tail lh s) (homeWrites data lh) := by
  induction lh with
  | nil => intro tail s _ _ _; exact Issued.refl s
  | cons b lh ih =>
    intro tail s hsize hout hlog
    rw [length_cons] at hsize
    have hb : ¬lg.Holds b := hout b (mem_cons_self ..)
    have hlog' : Logged lg (bread (bwrite s b (data b))) data (tail + 1) lh := by
      refine hlog.2.congr (by omega) fun a _ ha => ?_
      rw [bread_bwrite, update_of_ne]
      rintro rfl
      exact hb ha
    have hrest := ih (by omega) (fun c hc => hout c (mem_cons_of_mem _ hc)) hlog'
    rw [installTransFrom, hlog.1]
    exact (Issued.bwrite s b (data b)).trans hrest

theorem writeHead_issued (lg : LogArea) (lh : List Nat) (s : BlockState) :
    Issued s (writeHead lg lh s) [(lg.start, encodeHead (bread s lg.start) lh)] :=
  Issued.bwrite s _ _

/-! ## The header codec -/

theorem setHeadBlocks_word {bs : List Nat} {off : Nat} :
    ∀ {hb : Block} {i : Nat}, off + 4 ≤ 4 + 4 * i →
      (setHeadBlocks hb i bs).word 4 off = hb.word 4 off := by
  induction bs with
  | nil => intro _ _ _; rfl
  | cons b bs ih =>
    intro hb i h
    rw [setHeadBlocks, ih (by omega), ByteVec.word_setWord_disjoint (by omega)]

theorem map_headBlock_setHeadBlocks {bs : List Nat} (hlt : ∀ b ∈ bs, b < 2 ^ 32) :
    ∀ {hb : Block} {i : Nat}, i + bs.length ≤ LOGSIZE →
      (range' i bs.length).map (headBlock (setHeadBlocks hb i bs)) = bs := by
  induction bs with
  | nil => intro _ _ _; rfl
  | cons b bs ih =>
    intro hb i h
    rw [length_cons] at h
    have hb32 := hlt b (mem_cons_self ..)
    have hsizes := layout_sizes
    rw [length_cons, range'_succ, map_cons, setHeadBlocks]
    congr 1
    · rw [headBlock, setHeadBlocks_word (by omega), ByteVec.word_setWord_self (by omega)]
      exact Nat.mod_eq_of_lt hb32
    · grind

theorem headN_encodeHead (h : lh.length ≤ LOGSIZE) : headN (encodeHead hb lh) = lh.length := by
  have hsizes := layout_sizes
  rw [headN, encodeHead, setHeadBlocks_word (by omega),
    ByteVec.word_setWord_self (by omega), Nat.mod_eq_of_lt (by omega),
    toInt32_of_lt (by omega)]

/-- The block numbers a header block lists. -/
def headList (hb : Block) : List Nat :=
  (range (headN hb).toNat).map (headBlock hb)

theorem headList_encodeHead (h : lh.length ≤ LOGSIZE) (hlt : ∀ b ∈ lh, b < 2 ^ 32) :
    headList (encodeHead hb lh) = lh := by
  rw [headList, headN_encodeHead h, Int.toNat_natCast, range_eq_range']
  exact map_headBlock_setHeadBlocks hlt (by omega)

theorem headList_of_headN_zero (h : headN hb = 0) : headList hb = [] := by
  rw [headList, h]
  rfl

end Xv6
