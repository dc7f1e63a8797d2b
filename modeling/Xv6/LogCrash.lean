import Xv6.LogDisk

/-!
# Commit is crash-atomic

A commit interrupted between any two of its block writes, followed by
any number of interrupted recoveries and one that completes, leaves the
blocks outside the log either all old or all new.

The proof is a two-state abstraction of the disk. A disk is `Quiet` for
a home image when its header is empty and its home blocks are that
image; it is `Pending` for a transaction when its header lists the
transaction, the log blocks hold its contents and the home blocks
outside the transaction are the old ones (those inside may hold
anything: they are about to be overwritten). `write_head` is the only
write that moves between the two, so every crash point of `commit` and
of `recover_from_log` lands in one of them (`crashedRecovery_recoverable`),
and a completed recovery lands in `Quiet` with the same image
(`initlog_quiet`).
-/

namespace Xv6

open Function WriteSeq List Nat

/-! ## Transactions and the disks they are committed on -/

/-- A transaction as `log_write` builds it: distinct home blocks, no
more than fit the log area and the in-memory header, with the contents
the cache holds for them. -/
structure Transaction (lg : LogArea) where
  blocks : List Nat
  data : Nat → Block
  nodup : blocks.Nodup
  length_size : blocks.length ≤ lg.size - 1
  length_head : blocks.length ≤ LOGSIZE
  home : ∀ b ∈ blocks, ¬lg.Holds b
  word : ∀ b ∈ blocks, b < 2 ^ 32

/-- The logged blocks are newer in the cache than on the disk `d`. -/
def Transaction.cached {lg : LogArea} (tx : Transaction lg) (d : Disk) : BlockState :=
  { disk := d
    dirty := fun b => if b ∈ tx.blocks then some (tx.data b) else none
    trace := [] }

/-- The disk when the commit of `tx` on `d` crashes after `k` writes. -/
def crashedCommit (lg : LogArea) (d : Disk) (tx : Transaction lg) (k : Nat) : Disk :=
  crashed d (commit lg tx.blocks (tx.cached d)).trace k

/-- The disk after the commit of `tx` on `d` has run to its end. -/
def committed (lg : LogArea) (d : Disk) (tx : Transaction lg) : Disk :=
  (commit lg tx.blocks (tx.cached d)).disk

/-- The disks a running kernel commits on: `initlog` has recovered
whatever was on the disk at boot (any header `read_head` can read into
`log.lh`), and every later change to the disk is a completed commit. -/
inductive Mounted (lg : LogArea) : Disk → Prop
  | initlog {d : Disk} (h : headN (d lg.start) ≤ LOGSIZE) : Mounted lg (initlog lg d)
  | commit {d : Disk} (h : Mounted lg d) (tx : Transaction lg) :
      Mounted lg (committed lg d tx)

/-! ## The two states of a disk -/

/-- The header is empty and the home blocks are those of `img`. -/
structure Quiet (lg : LogArea) (img d : Disk) : Prop where
  head : headN (d lg.start) = 0
  home : ∀ b, ¬lg.Holds b → d b = img b

/-- The header lists a whole transaction, its log blocks are in place,
and outside it the home blocks are those of `img`, which agrees with the
transaction inside. -/
structure Pending (lg : LogArea) (tx : Transaction lg) (img d : Disk) : Prop where
  head : headList (d lg.start) = tx.blocks
  headN : headN (d lg.start) = tx.blocks.length
  logged : Logged lg d tx.data 0 tx.blocks
  home : ∀ b, ¬lg.Holds b → b ∉ tx.blocks → d b = img b
  img : ∀ b ∈ tx.blocks, img b = tx.data b

/-- A completed recovery of `d` will make `img` its home image. -/
def Recoverable (lg : LogArea) (img d : Disk) : Prop :=
  Quiet lg img d ∨ ∃ tx : Transaction lg, Pending lg tx img d

theorem LogArea.holds_start (lg : LogArea) : lg.Holds lg.start :=
  ⟨Nat.le_refl _, Nat.lt_add_of_pos_right lg.size_pos⟩

variable {lg : LogArea} {b : Nat} {img d : Disk} {tx : Transaction lg}

theorem LogArea.ne_start (h : ¬lg.Holds b) : b ≠ lg.start := by
  rintro rfl
  exact h lg.holds_start

/-- Clearing the header of a disk with the right home blocks. -/
theorem quiet_update_head {hb : Block} (hhome : ∀ b, ¬lg.Holds b → d b = img b) :
    Quiet lg img (update d lg.start (encodeHead hb [])) where
  head := by
    rw [update_self, headN_encodeHead (zero_le _)]
    rfl
  home b hb := by
    rw [update_of_ne (LogArea.ne_start hb)]
    exact hhome b hb

/-- Installing a pending transaction completely gives the home image. -/
theorem Pending.install (h : Pending lg tx img d) (hb : ¬lg.Holds b) :
    applyWrites d (homeWrites tx.data tx.blocks) b = img b := by
  by_cases hmem : b ∈ tx.blocks
  · have hw : (b, tx.data b) ∈ homeWrites tx.data tx.blocks :=
      mem_map.mpr ⟨b, hmem, rfl⟩
    rw [applyWrites_mem (by simpa using tx.nodup) hw, h.img b hmem]
  · rw [applyWrites_not_target (by simpa using hmem), h.home b hb hmem]

/-- A partly installed transaction is still pending. -/
theorem Pending.install_take (h : Pending lg tx img d) (k : Nat) :
    Pending lg tx img (applyWrites d ((homeWrites tx.data tx.blocks).take k)) := by
  have hkeep : ∀ a, a ∉ tx.blocks →
      applyWrites d ((homeWrites tx.data tx.blocks).take k) a = d a := by
    intro a ha
    refine applyWrites_not_target fun hm => ha ?_
    rw [map_take, homeWrites_targets] at hm
    exact mem_of_mem_take hm
  have hlog : ∀ a, lg.Holds a → a ∉ tx.blocks := fun a ha hm => tx.home a hm ha
  have hstart := hkeep _ (hlog _ lg.holds_start)
  refine ⟨by rw [hstart]; exact h.head, by rw [hstart]; exact h.headN, ?_, ?_, h.img⟩
  · have hlen := tx.length_size
    have hpos := lg.size_pos
    exact h.logged.congr (by omega) fun a _ ha => hkeep a (hlog a ha)
  · intro b hb hmem
    rw [hkeep b hmem]
    exact h.home b hb hmem

/-! ## What recovery writes -/

theorem recover_issued_quiet (h : Quiet lg img d) :
    Issued (.fresh d) (recoverFromLog lg (.fresh d))
      [(lg.start, encodeHead (d lg.start) [])] := by
  have hread : readHead lg (.fresh d) = [] := headList_of_headN_zero h.head
  rw [recoverFromLog, hread]
  exact writeHead_issued lg [] (.fresh d)

theorem recover_issued_pending (h : Pending lg tx img d) :
    ∃ hb, Issued (.fresh d) (recoverFromLog lg (.fresh d))
      (homeWrites tx.data tx.blocks ++ [(lg.start, encodeHead hb [])]) := by
  have hlen := tx.length_size
  have hpos := lg.size_pos
  have hread : readHead lg (.fresh d) = tx.blocks := h.head
  have hinst : Issued (.fresh d) (installTrans lg tx.blocks (.fresh d))
      (homeWrites tx.data tx.blocks) :=
    installTransFrom_issued (by omega) tx.home h.logged
  rw [recoverFromLog, hread]
  exact ⟨_, hinst.trans (writeHead_issued lg [] _)⟩

theorem Issued.crashed_fresh {s : BlockState} {ws : List (Nat × Block)} (h : Issued (.fresh d) s ws)
    (k : Nat) : crashed d s.trace k = applyWrites d (ws.take k) := by
  rw [crashed, h.trace]
  rfl

/-- One interrupted recovery leaves a disk with the same outcome. -/
theorem crashedRecovery_recoverable (h : Recoverable lg img d) (k : Nat) :
    Recoverable lg img (crashedRecovery lg d k) := by
  rcases h with hq | ⟨tx, hp⟩
  · rw [crashedRecovery, (recover_issued_quiet hq).crashed_fresh]
    cases k with
    | zero => exact Or.inl hq
    | succ k =>
      rw [take_of_length_le (by simp)]
      exact Or.inl (quiet_update_head hq.home)
  · obtain ⟨hb, hiss⟩ := recover_issued_pending hp
    rw [crashedRecovery, hiss.crashed_fresh]
    by_cases hk : k ≤ tx.blocks.length
    · rw [take_append_of_le_length (by simpa using hk)]
      exact Or.inr ⟨tx, hp.install_take k⟩
    · rw [take_of_length_le (by simp; omega), applyWrites_append]
      exact Or.inl (quiet_update_head fun b hb => hp.install hb)

theorem crashedRecoveries_recoverable (ks : List Nat) :
    ∀ {d : Disk}, Recoverable lg img d → Recoverable lg img (crashedRecoveries lg d ks) := by
  induction ks with
  | nil => intro d h; exact h
  | cons k ks ih => intro d h; exact ih (crashedRecovery_recoverable h k)

theorem initlog_quiet (h : Recoverable lg img d) : Quiet lg img (initlog lg d) := by
  rcases h with hq | ⟨tx, hp⟩
  · rw [initlog, (recover_issued_quiet hq).disk]
    exact quiet_update_head hq.home
  · obtain ⟨hb, hiss⟩ := recover_issued_pending hp
    rw [initlog, hiss.disk, applyWrites_append]
    exact quiet_update_head fun b hb => hp.install hb

/-! ## What a commit writes -/

/-- The home image after `tx`: the old one overwritten with all the
logged contents. -/
def Transaction.apply {lg : LogArea} (tx : Transaction lg) (d : Disk) : Disk :=
  fun b => if b ∈ tx.blocks then tx.data b else d b

theorem Transaction.bread_cached (tx : Transaction lg) (d : Disk) (hb : b ∈ tx.blocks) :
    bread (tx.cached d) b = tx.data b := by
  simp [bread, cached, hb]

/-- The four phases of a nonempty commit as one list of writes. -/
theorem commit_issued (tx : Transaction lg) (d : Disk) (hne : 0 < tx.blocks.length) :
    ∃ hb hb', Issued (tx.cached d) (commit lg tx.blocks (tx.cached d))
      (logWrites lg tx.data 0 tx.blocks ++ ((lg.start, encodeHead hb tx.blocks)
        :: (homeWrites tx.data tx.blocks ++ [(lg.start, encodeHead hb' [])]))) := by
  have hlen := tx.length_size
  have hpos := lg.size_pos
  have hlog : Issued (tx.cached d) (writeLog lg tx.blocks (tx.cached d))
      (logWrites lg (bread (tx.cached d)) 0 tx.blocks) :=
    writeLogFrom_issued (by omega) tx.home
  rw [logWrites_congr lg fun b hb => tx.bread_cached d hb] at hlog
  have hhead := writeHead_issued lg tx.blocks (writeLog lg tx.blocks (tx.cached d))
  -- the header write is not a log block, so the log blocks stand as written
  have hlogged : Logged lg (bread (writeHead lg tx.blocks (writeLog lg tx.blocks (tx.cached d))))
      tx.data 0 tx.blocks := by
    refine Logged.congr (by omega) ?_ (logged_logWrites (bread (tx.cached d)))
    intro a ha _
    rw [hhead.view, applyWrites_cons, applyWrites_nil, update_of_ne (by omega)]
    exact congrFun hlog.view a
  have hinst : Issued _ (installTrans lg tx.blocks
      (writeHead lg tx.blocks (writeLog lg tx.blocks (tx.cached d)))) _ :=
    installTransFrom_issued (by omega) tx.home hlogged
  rw [commit, if_pos hne]
  exact ⟨_, _, hlog.trans (hhead.trans (hinst.trans (writeHead_issued lg [] _)))⟩

/-- A prefix of the log writes leaves the disk quiet with the old image. -/
theorem Quiet.logWrites_take (tx : Transaction lg) (hd : headN (d lg.start) = 0) (k : Nat) :
    Quiet lg d (applyWrites d ((logWrites lg tx.data 0 tx.blocks).take k)) := by
  have hlen := tx.length_size
  have hpos := lg.size_pos
  have hkeep : ∀ a, a = lg.start ∨ ¬lg.Holds a →
      applyWrites d ((logWrites lg tx.data 0 tx.blocks).take k) a = d a := by
    intro a ha
    refine applyWrites_not_target fun hm => ?_
    rw [map_take] at hm
    have htgt := mem_logWrites_targets (mem_of_mem_take hm)
    rcases ha with rfl | ha
    · omega
    · exact ha ⟨by omega, by omega⟩
  exact ⟨by rw [hkeep _ (Or.inl rfl)]; exact hd, fun b hb => hkeep b (Or.inr hb)⟩

/-- All the log writes and then the header: the transaction is pending. -/
theorem pending_commit_point (tx : Transaction lg) (hb : Block) :
    Pending lg tx (tx.apply d)
      (update (applyWrites d (logWrites lg tx.data 0 tx.blocks)) lg.start
        (encodeHead hb tx.blocks)) where
  head := by
    rw [update_self]
    exact headList_encodeHead tx.length_head tx.word
  headN := by
    rw [update_self]
    exact headN_encodeHead tx.length_head
  logged := by
    have hlen := tx.length_size
    have hpos := lg.size_pos
    refine Logged.congr (by omega) ?_ (logged_logWrites d)
    grind
  home b hb hmem := by
    have hlen := tx.length_size
    have hpos := lg.size_pos
    rw [update_of_ne (LogArea.ne_start hb), applyWrites_not_target]
    · simp [Transaction.apply, hmem]
    · intro hm
      have htgt := mem_logWrites_targets hm
      exact hb ⟨by omega, by omega⟩
  img b hmem := by simp [Transaction.apply, hmem]

/-- A commit cut after `k` writes: the old image is recovered up to the
header write, the new one from it on. -/
theorem crashedCommit_recoverable (tx : Transaction lg) (hd : headN (d lg.start) = 0) (k : Nat) :
    Recoverable lg (if tx.blocks.length < k then tx.apply d else d)
      (crashedCommit lg d tx k) := by
  by_cases hne : 0 < tx.blocks.length
  · obtain ⟨hb, hb', hiss⟩ := commit_issued tx d hne
    have htrace : crashedCommit lg d tx k = applyWrites d (take k
        (logWrites lg tx.data 0 tx.blocks ++ ((lg.start, encodeHead hb tx.blocks)
          :: (homeWrites tx.data tx.blocks ++ [(lg.start, encodeHead hb' [])])))) := by
      rw [crashedCommit, crashed, hiss.trace]
      rfl
    by_cases hk : tx.blocks.length < k
    · rw [if_pos hk, htrace]
      obtain ⟨m, rfl⟩ : ∃ m, k = tx.blocks.length + (m + 1) := ⟨k - tx.blocks.length - 1, by omega⟩
      have hpend := pending_commit_point (d := d) tx hb
      rw [← logWrites_length lg tx.data 0 tx.blocks, take_length_add_append,
        applyWrites_append, take_succ_cons, applyWrites_cons]
      by_cases hm : m ≤ tx.blocks.length
      · rw [take_append_of_le_length (by simpa using hm)]
        exact Or.inr ⟨tx, hpend.install_take m⟩
      · rw [take_of_length_le (by simp; omega), applyWrites_append]
        exact Or.inl (quiet_update_head fun b hb => hpend.install hb)
    · rw [if_neg hk, htrace, take_append_of_le_length (by simp; omega)]
      exact Or.inl (Quiet.logWrites_take tx hd k)
  · -- an empty transaction writes nothing
    have hnil : tx.blocks = [] := length_eq_zero_iff.mp (by omega)
    have himg : (if tx.blocks.length < k then tx.apply d else d) = d := by
      split
      · funext b; simp [Transaction.apply, hnil]
      · rfl
    have hsame : crashedCommit lg d tx k = d := by
      rw [crashedCommit, commit, if_neg hne]
      simp [crashed, Transaction.cached]
    rw [himg, hsame]
    exact Or.inl ⟨hd, fun _ _ => rfl⟩

/-! ## Mounted disks have an empty header -/

theorem initlog_headN (lg : LogArea) (d : Disk) : headN (initlog lg d lg.start) = 0 := by
  have h := writeHead_issued lg [] (installTrans lg (readHead lg (.fresh d)) (.fresh d))
  rw [initlog, recoverFromLog, h.disk, applyWrites_cons, applyWrites_nil,
    update_self, headN_encodeHead (zero_le _)]
  rfl

theorem committed_headN (tx : Transaction lg) (hd : headN (d lg.start) = 0) :
    headN (committed lg d tx lg.start) = 0 := by
  by_cases hne : 0 < tx.blocks.length
  · obtain ⟨hb, hb', hiss⟩ := commit_issued tx d hne
    rw [committed, hiss.disk, ← cons_append, ← append_assoc, applyWrites_append,
      applyWrites_cons, applyWrites_nil, update_self,
      headN_encodeHead (zero_le _)]
    rfl
  · rw [committed, commit, if_neg hne]
    exact hd

theorem Mounted.headN_zero (h : Mounted lg d) : headN (d lg.start) = 0 := by
  induction h with
  | @initlog d _ => exact initlog_headN lg d
  | commit _ tx ih => exact committed_headN tx ih

/-! ## Crash atomicity -/

/-- **Commit is crash-atomic.** Cut the commit of any transaction after
any `k` of its writes, then recover with any number of interrupted
attempts and one that completes. The header ends empty, and the blocks
outside the log are the old ones when the cut came before the first
`write_head` reached the disk (write number `n + 1`), and the old ones
overwritten with every logged block when it came after. -/
theorem commit_crash_atomic {lg : LogArea} {d : Disk} (hd : Mounted lg d)
    (tx : Transaction lg) (k : Nat) (ks : List Nat) :
    headN (initlog lg (crashedRecoveries lg (crashedCommit lg d tx k) ks) lg.start) = 0
      ∧ (k ≤ tx.blocks.length → ∀ b, ¬lg.Holds b →
          initlog lg (crashedRecoveries lg (crashedCommit lg d tx k) ks) b = d b)
      ∧ (tx.blocks.length < k → ∀ b, ¬lg.Holds b →
          initlog lg (crashedRecoveries lg (crashedCommit lg d tx k) ks) b
            = if b ∈ tx.blocks then tx.data b else d b) := by
  have hrec := crashedCommit_recoverable tx hd.headN_zero k
  have hquiet := initlog_quiet (crashedRecoveries_recoverable ks hrec)
  refine ⟨hquiet.head, fun hk b hb => ?_, fun hk b hb => ?_⟩
  · rw [hquiet.home b hb, if_neg (by omega)]
  · rw [hquiet.home b hb, if_pos hk]
    rfl

/-- A commit of one block on a freshly booted blank disk, cut right
after the header write, with two interrupted recoveries. -/
theorem commit_crash_atomic_one_block :
    ∃ (lg : LogArea) (d : Disk) (_ : Mounted lg d) (tx : Transaction lg),
      tx.blocks = [100] ∧ headN (initlog lg
          (crashedRecoveries lg (crashedCommit lg d tx 2) [0, 1]) lg.start) = 0
        ∧ initlog lg (crashedRecoveries lg (crashedCommit lg d tx 2) [0, 1]) 100
          = ByteVec.fill BSIZE 7 := by
  let lg : LogArea := { start := 2, size := LOGSIZE, size_pos := by decide }
  let tx : Transaction lg :=
    { blocks := [100], data := fun _ => ByteVec.fill BSIZE 7, nodup := by decide
      length_size := by decide, length_head := by decide
      home := by decide, word := by decide }
  have hd : Mounted lg (initlog lg fun _ => ByteVec.fill BSIZE 0) :=
    Mounted.initlog (by decide)
  obtain ⟨h0, -, hnew⟩ := commit_crash_atomic hd tx 2 [0, 1]
  exact ⟨lg, _, hd, tx, rfl, h0, by simpa [tx] using hnew (by decide) 100 (by decide)⟩

end Xv6
