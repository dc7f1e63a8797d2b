import Xv6.LogGroup

/-!
# Log space reservation

`begin_op` admits an operation when the blocks logged so far plus
`MAXOPBLOCKS` for every operation inside, itself included, fit
`LOGSIZE`. The reservation is sound as arithmetic: the header plus what
the admitted operations may still add never exceeds `LOGSIZE`
(`Reserved`). It does not line up with the guard of `log_write`, which
refuses a call once `log.size - 1` blocks are logged, because `mkfs`
makes the log `LOGSIZE` blocks long, header included. The guard is
reached by a transaction that uses its last reserved block, and by no
other.

Operations are measured on the actions alone: `OpRecord` folds an
interleaving into the distinct blocks each process has passed to
`log_write` since its `begin_op`, and those passed since the last
commit.
-/

namespace Xv6

open Function StepSystem List

/-- `int nlog = LOGSIZE` in `mkfs.c`: the log size the superblock
carries to `initlog`. -/
def mkfsNlog : Nat := LOGSIZE

/-! ## What an interleaving passes to `log_write` -/

structure OpRecord where
  /-- Distinct blocks passed by a process in its current operation. -/
  op : Nat → Finset Nat
  /-- Distinct blocks passed by anybody since the last commit. -/
  tx : Finset Nat

def OpRecord.init : OpRecord := { op := fun _ => ∅, tx := ∅ }

def OpRecord.step (r : OpRecord) : LogAct → OpRecord
  | .beginOp p => { r with op := update r.op p ∅ }
  | .logWrite p b =>
      { op := update r.op p (insert b (r.op p)), tx := insert b r.tx }
  | .endCommit _ => { r with tx := ∅ }
  | _ => r

/-- The call keeps its operation within `k` distinct blocks. -/
def LogAct.Within (k : Nat) (r : OpRecord) : LogAct → Prop
  | .logWrite p b => (insert b (r.op p)).card ≤ k
  | _ => True

/-- The call comes while fewer than `LOGSIZE - 1` distinct blocks have
been passed since the last commit. -/
def LogAct.RoomLeft (r : OpRecord) : LogAct → Prop
  | .logWrite _ _ => r.tx.card < LOGSIZE - 1
  | _ => True

/-- `P` holds of every action of the interleaving, given the record of
the actions before it. -/
def Throughout (P : OpRecord → LogAct → Prop) : OpRecord → List LogAct → Prop
  | _, [] => True
  | r, a :: as => P r a ∧ Throughout P (r.step a) as

instance (k : Nat) (r : OpRecord) : (a : LogAct) → Decidable (a.Within k r)
  | .logWrite _ _ => inferInstanceAs (Decidable (_ ≤ _))
  | .beginOp _ | .endOp _ | .commitStep _ | .endCommit _ | .kill _ => isTrue trivial

instance (r : OpRecord) : (a : LogAct) → Decidable (a.RoomLeft r)
  | .logWrite _ _ => inferInstanceAs (Decidable (_ < _))
  | .beginOp _ | .endOp _ | .commitStep _ | .endCommit _ | .kill _ => isTrue trivial

instance Throughout.decidable {P : OpRecord → LogAct → Prop} [∀ r a, Decidable (P r a)] :
    ∀ r as, Decidable (Throughout P r as)
  | _, [] => isTrue trivial
  | r, a :: as =>
      have := Throughout.decidable (P := P) (r.step a) as
      inferInstanceAs (Decidable (_ ∧ _))

/-! ## The reservation invariant

Stated for any per-operation bound `k` and total `B` that the admission
test supports, since the slack between them is what the panic eats. -/

/-- Reserving `k` blocks per operation keeps the total within `B`: true
of an admission into a log with `n` blocks and `m` operations inside. -/
def Supports (k B : Nat) : Prop :=
  ∀ n m : Nat, (m = 0 → n = 0) → n + (m + 1) * MAXOPBLOCKS ≤ LOGSIZE → n + (m + 1) * k ≤ B

structure Reserved (k B : Nat) (s : LogSys) (r : OpRecord) : Prop where
  group : GroupInv s
  nodup : s.log.lh.Nodup
  /-- Outside commits the header lists exactly the blocks passed. -/
  tx : s.panic = none → s.log.committing = false → s.log.lh.toFinset = r.tx
  op_sub : ∀ p, s.pc p = .inOp → r.op p ⊆ r.tx
  /-- Header plus unused reservations. -/
  bound : ∀ S, s.OpSet S → s.log.lh.length + ∑ p ∈ S, (k - (r.op p).card) ≤ B

variable {s s' : LogSys} {k B p b : Nat} {r : OpRecord} {a : LogAct} {acts : List LogAct}

theorem LogSys.OpSet.unique {S T : Finset Nat} (hS : s.OpSet S) (hT : s.OpSet T) :
    S = T := Finset.ext fun p => by rw [hS p, hT p]

theorem Reserved.length_eq (h : Reserved k B s r) (hp : s.panic = none)
    (hc : s.log.committing = false) : s.log.lh.length = r.tx.card := by
  rw [← h.tx hp hc, toFinset_card_of_nodup h.nodup]

theorem reserved_init (k B size : Nat) : Reserved k B (LogSys.init size) .init where
  group := groupInv_init size
  nodup := nodup_nil
  tx _ _ := rfl
  op_sub p h := by simp [LogSys.init] at h
  bound S hS := by
    have hemp : S = ∅ := Finset.eq_empty_of_forall_notMem fun p hp => by
      simp [hS p, LogSys.init] at hp
    simp [hemp, LogSys.init]

/-- Moves that neither log nor admit: the same operations minus some,
the same header or none. -/
theorem Reserved.shrink (h : Reserved k B s r) (hg : GroupInv s')
    (hlh : s'.log.lh = s.log.lh ∨ s'.log.lh = []) (hp : s'.panic = s.panic)
    (htx : s'.log.committing = false → s.log.committing = false ∧ s'.log.lh = s.log.lh)
    (hop : ∀ p, s'.pc p = .inOp → s.pc p = .inOp) : Reserved k B s' r where
  group := hg
  nodup := by
    rcases hlh with hlh | hlh <;> rw [hlh]
    · exact h.nodup
    · exact nodup_nil
  tx hnone hc := by
    rw [(htx hc).2]
    exact h.tx (hp ▸ hnone) (htx hc).1
  op_sub p hp := h.op_sub p (hop p hp)
  bound S hS := by
    obtain ⟨T, hT, -⟩ := h.group.outstanding
    have hsub : S ⊆ T := fun p hp => (hT p).mpr (hop p ((hS p).mp hp))
    have hsum : ∑ p ∈ S, (k - (r.op p).card) ≤ ∑ p ∈ T, (k - (r.op p).card) :=
      Finset.sum_le_sum_of_subset hsub
    have hlen : s'.log.lh.length ≤ s.log.lh.length := by grind
    have := h.bound T hT
    omega

/-- Forgetting the record of a process outside any operation. -/
theorem Reserved.forget (h : Reserved k B s r) (hp : s.pc p ≠ .inOp) :
    Reserved k B s { r with op := update r.op p ∅ } where
  group := h.group
  nodup := h.nodup
  tx := h.tx
  op_sub q hq := by
    have hqp : q ≠ p := by rintro rfl; exact hp hq
    simp only [update_of_ne hqp]
    exact h.op_sub q hq
  bound S hS := by
    have hsame : ∑ q ∈ S, (k - (update r.op p ∅ q).card)
        = ∑ q ∈ S, (k - (r.op q).card) := by
      refine Finset.sum_congr rfl fun q hq => ?_
      rw [update_of_ne]
      rintro rfl
      exact hp ((hS q).mp hq)
    rw [hsame]
    exact h.bound S hS

theorem Reserved.admitted (hsup : Supports k B) (h : Reserved k B s r)
    (hpc : s.pc p = .idle ∨ s.pc p = .woken) (ha : s.log.Admits) :
    Reserved k B
      ({ s with log := { s.log with outstanding := s.log.outstanding + 1 } }.setPc p .inOp)
      { r with op := update r.op p ∅ } where
  group := h.group.admitted hpc ha
  nodup := h.nodup
  tx := h.tx
  op_sub q hq := by
    by_cases hqp : q = p
    · subst hqp; simp
    · rw [LogSys.setPc_pc_of_ne _ hqp] at hq
      simp only [update_of_ne hqp]
      exact h.op_sub q hq
  bound S hS := by
    obtain ⟨T, hT, hcard⟩ := h.group.outstanding
    have hnot : p ∉ T := fun hm => by simp_all [hT p, hpc]
    obtain rfl : S = insert p T := hS.unique (LogSys.OpSet.setPc_insert hT)
    -- the test was made with every operation's full reservation
    have hadm := hsup s.log.lh.length T.card
      (fun h0 => by rw [h.group.empty ha.1 (by omega)]; rfl)
      (by have := ((LogVars.admits_iff _).mp ha).2
          have hsizes := layout_sizes
          rw [hsizes.2.1, hsizes.2.2]
          omega)
    have hsum : ∑ q ∈ T, (k - (update r.op p ∅ q).card) ≤ T.card * k :=
      Finset.sum_le_card_nsmul _ _ _ fun q _ => Nat.sub_le _ _
    grind [Finset.sum_insert hnot, LogSys.setPc_log, update_self, Finset.card_empty]

/-- Recording a call by a process inside an operation never raises the
unused reservations. -/
theorem sum_record_le (S : Finset Nat) :
    ∑ q ∈ S, (k - (update r.op p (insert b (r.op p)) q).card)
      ≤ ∑ q ∈ S, (k - (r.op q).card) := by
  refine Finset.sum_le_sum fun q _ => ?_
  by_cases hq : q = p
  · subst hq
    rw [update_self]
    have := Finset.card_le_card (Finset.subset_insert b (r.op q))
    omega
  · rw [update_of_ne hq]

/-- Recording a new block uses up one reserved block. -/
theorem sum_record_lt {S : Finset Nat} (hp : p ∈ S) (hb : b ∉ r.op p)
    (hk : (insert b (r.op p)).card ≤ k) :
    ∑ q ∈ S, (k - (update r.op p (insert b (r.op p)) q).card)
      < ∑ q ∈ S, (k - (r.op q).card) := by
  rw [Finset.card_insert_of_notMem hb] at hk
  refine Finset.sum_lt_sum (fun q _ => ?_) ⟨p, hp, ?_⟩
  · grind
  · grind

theorem op_sub_record (h : ∀ q, s.pc q = .inOp → r.op q ⊆ r.tx) :
    ∀ q, s.pc q = .inOp →
      update r.op p (insert b (r.op p)) q ⊆ insert b r.tx := by
  intro q hq
  by_cases hqp : q = p
  · grind
  · grind

theorem Reserved.logged (h : Reserved k B s r) (hnone : s.panic = none) (hpc : s.pc p = .inOp)
    (hb : b ∉ s.log.lh) (hk : (insert b (r.op p)).card ≤ k) :
    Reserved k B { s with log := { s.log with lh := s.log.lh ++ [b] } }
      (r.step (.logWrite p b)) where
  group := h.group.logged hpc
  nodup := nodup_append.mpr ⟨h.nodup, nodup_singleton b, by
    intro a ha c hc
    rw [mem_singleton] at hc
    subst hc
    exact fun hac => hb (hac ▸ ha)⟩
  tx _ hc := by
    have := h.tx hnone hc
    ext a
    simp [OpRecord.step, ← this]
  op_sub := op_sub_record h.op_sub
  bound S hS := by
    have hS' : s.OpSet S := hS
    have hnew : b ∉ r.op p := fun hm => by
      have := h.op_sub p hpc hm
      rw [← h.tx hnone (h.group.of_inOp hpc).2, mem_toFinset] at this
      exact hb this
    have hlt := sum_record_lt ((hS' p).mpr hpc) hnew hk
    have := h.bound S hS'
    simp only [length_append, length_singleton, OpRecord.step]
    omega

/-- A call that leaves the log alone, by absorption or by a panic. -/
theorem Reserved.record (h : Reserved k B s r) (hg : GroupInv s') (hlog : s'.log = s.log)
    (hpcs : s'.pc = s.pc)
    (htx : s'.panic = none → s.log.committing = false → s.log.lh.toFinset = insert b r.tx) :
    Reserved k B s' (r.step (.logWrite p b)) where
  group := hg
  nodup := by rw [hlog]; exact h.nodup
  tx hnone hc := by
    rw [hlog] at hc ⊢
    exact htx hnone hc
  op_sub := by
    have := op_sub_record (p := p) (b := b) h.op_sub
    rwa [← hpcs] at this
  bound S hS := by
    have hS' : s.OpSet S := fun q => by rw [hS q, hpcs]
    have hle := sum_record_le (k := k) (r := r) (p := p) (b := b) S
    have := h.bound S hS'
    rw [hlog]
    simp only [OpRecord.step]
    omega

/-- **One step keeps the reservation** when its call stays within the
operation's bound. -/
theorem reserved_step (hsup : Supports k B) (h : Reserved k B s r) (hk : a.Within k r)
    (hstep : logStep s a = some s') : Reserved k B s' (r.step a) := by
  obtain ⟨hnone, hmove⟩ := logStep_move hstep
  have hg := groupInv_move h.group hmove
  cases hmove with
  | admitted hpc ha => exact h.admitted hsup hpc ha
  | @sleeps p hpc ha =>
    have hnot : s.pc p ≠ .inOp := by rcases hpc with hpc | hpc <;> simp [hpc]
    refine (h.forget hnot).shrink hg (Or.inl rfl) rfl (fun hc => ⟨hc, rfl⟩) fun q hq => ?_
    by_cases hqp : q = p
    · subst hqp; simp at hq
    · rwa [LogSys.setPc_pc_of_ne _ hqp] at hq
  | tooBig hpc => exact h.record hg rfl rfl (by simp)
  | outsideTrans hpc => exact h.record hg rfl rfl (by simp)
  | @absorbed p b hpc hroom hsize hb =>
    refine h.record hg rfl rfl fun _ hc => ?_
    simp_all [← h.tx hnone hc]
  | @logged p b hpc hroom hsize hb => exact h.logged hnone hpc hb hk
  | logCommitting hpc hc =>
    rw [(h.group.of_inOp hpc).2] at hc
    cases hc
  | @lastOp p hpc hc hout =>
    refine h.shrink hg (Or.inl rfl) rfl (fun hc' => by simp at hc') fun q hq => ?_
    grind [LogSys.setPc_pc_of_ne]
  | @leaves p hpc hc hout =>
    refine h.shrink hg (Or.inl rfl) rfl (fun hc' => ⟨hc, rfl⟩) fun q hq => ?_
    by_cases hqp : q = p
    · subst hqp; simp at hq
    · rwa [LogSys.setPc_pc_of_ne _ hqp, LogSys.wakeup_pc (by simp) (by simp)] at hq
  | @commitStep p ph hpc =>
    have hcom : s.log.committing = true := h.group.committer.mpr ⟨p, by rw [hpc]; trivial⟩
    have hopc : ∀ q, (commitStep s p ph).pc q = .inOp → s.pc q = .inOp := by
      intro q hq
      by_cases hqp : q = p
      · subst hqp
        cases ph <;> simp only [commitStep] at hq <;> (try split at hq) <;> simp at hq
      · cases ph <;> simp only [commitStep] at hq <;> (try split at hq) <;>
          simpa [LogSys.setPc_pc_of_ne _ hqp] using hq
    have hlogc : (commitStep s p ph).log.committing = s.log.committing := by
      cases ph <;> simp only [commitStep] <;> (try split) <;> rfl
    have hlogl : (commitStep s p ph).log.lh = s.log.lh ∨ (commitStep s p ph).log.lh = [] := by
      cases ph <;> simp only [commitStep] <;> (try split) <;> simp
    have hpan : (commitStep s p ph).panic = s.panic := by
      cases ph <;> simp only [commitStep] <;> (try split) <;> rfl
    refine h.shrink hg hlogl hpan (fun hc => ?_) hopc
    rw [hlogc, hcom] at hc
    cases hc
  | @endCommit p hpc =>
    have hnil := h.group.cleared p (Or.inr hpc)
    have hop : ∀ q, (endCommit s p).pc q ≠ .inOp := by
      intro q hq
      have hcom := h.group.committer.mpr ⟨p, by rw [hpc]; trivial⟩
      by_cases hqp : q = p
      · subst hqp; simp [endCommit] at hq
      · rw [endCommit, LogSys.setPc_pc_of_ne _ hqp, LogSys.wakeup_pc (by simp) (by simp)] at hq
        have := (h.group.of_inOp hq).2
        rw [hcom] at this
        cases this
    have hlh : (endCommit s p).log.lh = [] := hnil
    exact
      { group := hg
        nodup := by rw [hlh]; exact nodup_nil
        tx := fun _ _ => by rw [hlh]; rfl
        op_sub := fun q hq => absurd hq (hop q)
        bound := fun S hS => by
          have hemp : S = ∅ := Finset.eq_empty_of_forall_notMem fun q hq =>
            hop q ((hS q).mp hq)
          rw [hemp, hlh]
          simp }
  | @kill p hpc =>
    refine h.shrink hg (Or.inl rfl) rfl (fun hc => ⟨hc, rfl⟩) fun q hq => ?_
    by_cases hqp : q = p
    · subst hqp; simp at hq
    · rwa [LogSys.setPc_pc_of_ne _ hqp] at hq

/-- The reservation over a whole run. -/
theorem reserved_run (hsup : Supports k B) :
    ∀ {s t : LogSys} {r : OpRecord}, Reserved k B s r → Throughout (LogAct.Within k) r acts →
      logRun s acts = some t → Reserved k B t (acts.foldl OpRecord.step r) := by
  induction acts with
  | nil =>
    intro s t r h _ hrun
    simp_all
  | cons a acts ih =>
    intro s t r h hk hrun
    obtain ⟨s', h1, h2⟩ := run_cons.mp hrun
    exact ih (reserved_step hsup h hk.1 h1) hk.2 h2

/-! ## The panics of `log_write` -/

/-- Before a call by a process inside an operation the guard fires
exactly when `LOGSIZE - 1` blocks have been passed already. -/
theorem logWrite_panics_iff (h : Reserved k B s r) (hsize : s.log.size = mkfsNlog)
    (hstep : logStep s (.logWrite p b) = some s') : s'.panic = none ↔ r.tx.card < LOGSIZE - 1 := by
  obtain ⟨hnone, hmove⟩ := logStep_move hstep
  have hsizes := layout_sizes
  have hnlog : s.log.size = 30 := hsize
  cases hmove with
  | tooBig hpc hbig =>
    rw [← h.length_eq hnone (h.group.of_inOp hpc).2]
    grind
  | outsideTrans hpc hout =>
    have := (h.group.of_inOp hpc).1
    omega
  | absorbed hpc hroom hlt hb =>
    rw [← h.length_eq hnone (h.group.of_inOp hpc).2]
    exact iff_of_true hnone (by omega)
  | logged hpc hroom hlt hb =>
    rw [← h.length_eq hnone (h.group.of_inOp hpc).2]
    exact iff_of_true hnone (by omega)

/-- No other action panics. -/
theorem logStep_panic_none (h : GroupInv s) (hstep : logStep s a = some s')
    (ha : ∀ p b, a ≠ .logWrite p b) : s'.panic = none := by
  obtain ⟨hnone, hmove⟩ := logStep_move hstep
  cases hmove with
  | tooBig | outsideTrans | absorbed | logged => exact absurd rfl (ha _ _)
  | logCommitting hpc hc =>
    rw [(h.of_inOp hpc).2] at hc
    cases hc
  | @commitStep p ph hpc =>
    cases ph <;> simp only [commitStep] <;> (try split) <;> exact hnone
  | admitted | sleeps | lastOp | leaves | endCommit | kill => exact hnone

theorem logStep_size (hstep : logStep s a = some s') : s'.log.size = s.log.size := by
  obtain ⟨-, hmove⟩ := logStep_move hstep
  cases hmove with
  | @commitStep p ph hpc => cases ph <;> simp only [commitStep] <;> (try split) <;> rfl
  | admitted | sleeps | tooBig | outsideTrans | absorbed | logged | logCommitting | lastOp
  | leaves | endCommit | kill => rfl

/-- A stopped machine runs no further. -/
theorem logRun_of_panic {t : LogSys} (hp : s.panic ≠ none) (hrun : logRun s acts = some t) :
    acts = [] := by
  cases acts with
  | nil => rfl
  | cons a acts =>
    obtain ⟨s', h1, -⟩ := run_cons.mp hrun
    exact absurd (logStep_move h1).1 hp

/-- One action ends without a panic exactly when it leaves room. -/
theorem logStep_panics_iff (h : Reserved k B s r) (hsize : s.log.size = mkfsNlog)
    (hstep : logStep s a = some s') : s'.panic = none ↔ a.RoomLeft r := by
  cases a with
  | logWrite p b => exact logWrite_panics_iff h hsize hstep
  | beginOp | endOp | commitStep | endCommit | kill =>
    exact iff_of_true (logStep_panic_none h.group hstep (by simp)) trivial

/-- A run from a reserved state ends without a panic exactly when every
call left room. -/
theorem logRun_panics_iff (hsup : Supports k B) :
    ∀ {s t : LogSys} {r : OpRecord}, Reserved k B s r → s.panic = none →
      s.log.size = mkfsNlog → Throughout (LogAct.Within k) r acts → logRun s acts = some t →
      (t.panic = none ↔ Throughout LogAct.RoomLeft r acts) := by
  induction acts with
  | nil =>
    intro s t r h hp hsize _ hrun
    cases hrun
    exact iff_of_true hp trivial
  | cons a acts ih =>
    intro s t r h hp hsize hk hrun
    obtain ⟨s', h1, h2⟩ := run_cons.mp hrun
    have hiff := logStep_panics_iff h hsize h1
    by_cases hroom : a.RoomLeft r
    · rw [ih (reserved_step hsup h hk.1 h1) (hiff.mpr hroom) ((logStep_size h1).trans hsize)
        hk.2 h2]
      exact ⟨fun hrest => ⟨hroom, hrest⟩, fun hall => hall.2⟩
    · -- the machine stopped at this action
      have hpan : s'.panic ≠ none := fun hnone => hroom (hiff.mp hnone)
      obtain rfl := logRun_of_panic hpan h2
      cases h2
      exact iff_of_false hpan fun hall => hroom hall.1

theorem supports_maxopblocks : Supports MAXOPBLOCKS LOGSIZE := fun _ _ _ h => h

/-- One block less per operation saves two in total: a second operation
is only admitted next to a first. -/
theorem supports_one_less : Supports (MAXOPBLOCKS - 1) (LOGSIZE - 2) := by
  intro n m hm h
  grind

/-- **When the reservation is enough.** On the log `mkfs` makes, for any
interleaving of operations that each pass at most `MAXOPBLOCKS` distinct
blocks: the machine is never stopped by either panic of `log_write` if
and only if every call comes while fewer than `LOGSIZE - 1` distinct
blocks have been passed since the last commit. The header plus the
unused reservations stay within `LOGSIZE` in either case. -/
theorem log_reservation_iff {acts : List LogAct} {s : LogSys}
    (hrun : logRun (LogSys.init mkfsNlog) acts = some s)
    (hops : Throughout (LogAct.Within MAXOPBLOCKS) .init acts) :
    ((s.panic ≠ some .tooBig ∧ s.panic ≠ some .outsideTrans)
        ↔ Throughout LogAct.RoomLeft .init acts)
      ∧ ∀ S, s.OpSet S → s.log.lh.length
          + ∑ p ∈ S, (MAXOPBLOCKS - ((acts.foldl OpRecord.step .init).op p).card) ≤ LOGSIZE := by
  have hinit := reserved_init MAXOPBLOCKS LOGSIZE mkfsNlog
  have hend := reserved_run supports_maxopblocks hinit hops hrun
  refine ⟨?_, hend.bound⟩
  rw [← logRun_panics_iff supports_maxopblocks hinit rfl rfl hops hrun]
  constructor
  · rintro ⟨hbig, hout⟩
    cases hp : s.panic with
    | none => rfl
    | some e =>
      cases e with
      | tooBig => exact absurd hp hbig
      | outsideTrans => exact absurd hp hout
      | logCommitting => exact absurd hp hend.group.panic
  · grind

/-- Three operations of ten distinct blocks each, run side by side. -/
def fullLoad : List LogAct :=
  (range 3).map LogAct.beginOp
    ++ (range 30).map fun i => LogAct.logWrite (i / 10) (100 + i)

/-- The fullest load the admission test lets in stops the machine at its
last block. -/
theorem full_load_panics :
    Throughout (LogAct.Within MAXOPBLOCKS) .init fullLoad
      ∧ (logRun (LogSys.init mkfsNlog) fullLoad).map LogSys.panic = some (some .tooBig) := by
  decide

/-- Three operations that stop one block short. -/
theorem log_reservation_iff_three :
    ∃ s, logRun (LogSys.init mkfsNlog) (fullLoad.take 32) = some s
      ∧ (s.panic ≠ some .tooBig ∧ s.panic ≠ some .outsideTrans) := by
  obtain ⟨s, hs⟩ : ∃ s, logRun (LogSys.init mkfsNlog) (fullLoad.take 32) = some s := ⟨_, rfl⟩
  exact ⟨s, hs, (log_reservation_iff hs (by decide)).1.mpr (by decide)⟩

/-- With two blocks of slack every enabled call leaves room. -/
theorem roomLeft_of_reserved (h : Reserved k (LOGSIZE - 2) s r) (hstep : logStep s a = some s') :
    a.RoomLeft r := by
  cases a with
  | logWrite p b =>
    obtain ⟨hnone, hmove⟩ := logStep_move hstep
    obtain ⟨S, hS, -⟩ := h.group.outstanding
    have hpc : s.pc p = .inOp := by cases hmove <;> assumption
    have hb := h.bound S hS
    have hlen := h.length_eq hnone (h.group.of_inOp hpc).2
    have hsizes := layout_sizes
    show r.tx.card < LOGSIZE - 1
    omega
  | beginOp | endOp | commitStep | endCommit | kill => trivial

/-- Operations of at most `MAXOPBLOCKS - 1` distinct blocks never reach
either panic. -/
theorem no_panic_of_small_ops (hrun : logRun (LogSys.init mkfsNlog) acts = some s)
    (hops : Throughout (LogAct.Within (MAXOPBLOCKS - 1)) .init acts) : s.panic = none := by
  have hinit := reserved_init (MAXOPBLOCKS - 1) (LOGSIZE - 2) mkfsNlog
  rw [logRun_panics_iff supports_one_less hinit rfl rfl hops hrun]
  clear hinit
  have key : ∀ {s t : LogSys} {r : OpRecord}, Reserved (MAXOPBLOCKS - 1) (LOGSIZE - 2) s r →
      Throughout (LogAct.Within (MAXOPBLOCKS - 1)) r acts → logRun s acts = some t →
      Throughout LogAct.RoomLeft r acts := by
    clear hrun hops
    induction acts with
    | nil => intro s t r _ _ _; trivial
    | cons a acts ih =>
      intro s t r h hk hrun
      obtain ⟨s', h1, h2⟩ := run_cons.mp hrun
      exact ⟨roomLeft_of_reserved h h1,
        ih (reserved_step supports_one_less h hk.1 h1) hk.2 h2⟩
  exact key (reserved_init _ _ _) hops hrun

theorem no_panic_of_small_ops_three :
    ∃ s, logRun (LogSys.init mkfsNlog) (fullLoad.take 12) = some s ∧ s.panic = none := by
  obtain ⟨s, hs⟩ : ∃ s, logRun (LogSys.init mkfsNlog) (fullLoad.take 12) = some s := ⟨_, rfl⟩
  exact ⟨s, hs, no_panic_of_small_ops hs (by decide)⟩

end Xv6
