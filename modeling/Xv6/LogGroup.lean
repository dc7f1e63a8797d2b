import Xv6.LogOps

/-!
# Group commit: isolation and admission

The joint invariant of `outstanding`, `committing` and the in-memory
header over every interleaving of `begin_op`, `log_write` and `end_op`.

`outstanding` counts the processes inside an operation; `committing` is
set exactly while one process is between the two critical sections of
its `end_op`, and then nobody is inside an operation, so nobody but that
process can reach the header. Sleepers are only ever left behind in
states where the test they failed still fails: the header only grows
while operations run, and both places that can make the test succeed
(`outstanding` dropping, `committing` clearing) wake everybody up in the
same critical section.
-/

namespace Xv6

open StepSystem Finset

/-- The process is between the two critical sections of `end_op`. -/
def OpPc.Committing : OpPc → Prop
  | .commit _ => True
  | .endCommit => True
  | _ => False

/-- `S` is the set of processes inside an operation. -/
def LogSys.OpSet (s : LogSys) (S : Finset Nat) : Prop :=
  ∀ p, p ∈ S ↔ s.pc p = .inOp

structure GroupInv (s : LogSys) : Prop where
  /-- `outstanding` counts the processes inside an operation. -/
  outstanding : ∃ S, s.OpSet S ∧ s.log.outstanding = S.card
  /-- `committing` is set exactly while a process commits. -/
  committer : s.log.committing = true ↔ ∃ p, (s.pc p).Committing
  /-- There is one committer. -/
  unique : ∀ p q, (s.pc p).Committing → (s.pc q).Committing → p = q
  /-- No operation runs during a commit. -/
  quiet : s.log.committing = true → s.log.outstanding = 0
  /-- A quiescent log is empty. -/
  empty : s.log.committing = false → s.log.outstanding = 0 → s.log.lh = []
  /-- Late in a commit the header has been cleared. -/
  cleared : ∀ p, s.pc p = .commit .eraseHead ∨ s.pc p = .endCommit → s.log.lh = []
  /-- Sleepers would still fail their test. -/
  asleep : ∀ p, s.pc p = .asleep → ¬s.log.Admits
  panic : s.panic ≠ some .logCommitting

/-! ## The set of processes inside an operation -/

section OpSet

variable {s : LogSys} {S : Finset Nat} {p : Nat} {c : OpPc}

theorem LogSys.OpSet.setPc_insert (h : s.OpSet S) : (s.setPc p .inOp).OpSet (insert p S) := by
  intro q
  rw [mem_insert, h q]
  by_cases hq : q = p
  · subst hq; simp
  · simp [hq, s.setPc_pc_of_ne hq]

theorem LogSys.OpSet.setPc_erase (h : s.OpSet S) (hc : c ≠ .inOp) :
    (s.setPc p c).OpSet (S.erase p) := by
  intro q
  rw [mem_erase, h q]
  by_cases hq : q = p
  · subst hq; simp [hc]
  · simp [hq, s.setPc_pc_of_ne hq]

theorem LogSys.OpSet.setPc_same (h : s.OpSet S) (hp : s.pc p ≠ .inOp) (hc : c ≠ .inOp) :
    (s.setPc p c).OpSet S := by
  have he := h.setPc_erase (p := p) hc
  rwa [erase_eq_of_notMem fun hm => hp ((h p).mp hm)] at he

theorem LogSys.OpSet.wakeup (h : s.OpSet S) : s.wakeup.OpSet S := fun q => by
  rw [h q, LogSys.wakeup_pc (by simp) (by simp)]

end OpSet

/-- A process inside an operation makes `outstanding` positive, so no
commit is running. -/
theorem GroupInv.of_inOp {s : LogSys} (h : GroupInv s) {p : Nat} (hp : s.pc p = .inOp) :
    1 ≤ s.log.outstanding ∧ s.log.committing = false := by
  obtain ⟨S, hS, hcard⟩ := h.outstanding
  have hpos : 0 < S.card := card_pos.mpr ⟨p, (hS p).mpr hp⟩
  have hout : 1 ≤ s.log.outstanding := by omega
  refine ⟨hout, ?_⟩
  cases hc : s.log.committing with
  | false => rfl
  | true =>
    have := h.quiet hc
    omega

theorem groupInv_init (size : Nat) : GroupInv (LogSys.init size) where
  outstanding := ⟨∅, fun p => by simp [LogSys.init], rfl⟩
  committer := by simp [LogSys.init, OpPc.Committing]
  unique p q h := by simp [LogSys.init, OpPc.Committing] at h
  quiet h := by simp [LogSys.init] at h
  empty _ _ := rfl
  cleared p h := by simp [LogSys.init] at h
  asleep p h := by simp [LogSys.init] at h
  panic := by simp [LogSys.init]

/-! ## The committing process -/

section Committing

variable {s : LogSys} {p : Nat} {c : OpPc}

theorem LogSys.setPc_committing (h : (s.pc p).Committing ↔ c.Committing) (q : Nat) :
    ((s.setPc p c).pc q).Committing ↔ (s.pc q).Committing := by
  by_cases hq : q = p
  · subst hq; rw [s.setPc_pc_self, h]
  · rw [s.setPc_pc_of_ne hq]

theorem LogSys.wakeup_committing (q : Nat) :
    (s.wakeup.pc q).Committing ↔ (s.pc q).Committing := by
  simp only [LogSys.wakeup]
  split
  · rename_i h
    rw [h]
    exact Iff.rfl
  · exact Iff.rfl

/-- A process that is late in its commit is committing. -/
theorem OpPc.committing_of_late (h : c = .commit .eraseHead ∨ c = .endCommit) :
    c.Committing := by
  rcases h with rfl | rfl <;> trivial

theorem OpPc.not_committing_of_begin (h : c = .idle ∨ c = .woken) : ¬c.Committing := by
  rcases h with rfl | rfl <;> exact id

end Committing

/-- Without a commit there is no committer. -/
theorem GroupInv.no_committer {s : LogSys} (h : GroupInv s) (hc : s.log.committing = false)
    (q : Nat) : ¬(s.pc q).Committing := fun hq => by
  rw [h.committer.mpr ⟨q, hq⟩] at hc
  cases hc

/-- Changing the program counter of one process within the same side of
`Committing`, outside operations and not to sleep, keeps the invariant
as long as the header has been cleared where it must be. -/
theorem GroupInv.setPc {s : LogSys} (h : GroupInv s) {p : Nat} {c : OpPc}
    (hp : s.pc p ≠ .inOp) (hc : c ≠ .inOp) (hcomm : (s.pc p).Committing ↔ c.Committing)
    (hsleep : c = .asleep → ¬s.log.Admits)
    (hlate : c = .commit .eraseHead ∨ c = .endCommit → s.log.lh = []) :
    GroupInv (s.setPc p c) where
  outstanding := by
    obtain ⟨S, hS, hcard⟩ := h.outstanding
    exact ⟨S, hS.setPc_same hp hc, hcard⟩
  committer := by
    rw [LogSys.setPc_log, h.committer]
    simp only [LogSys.setPc_committing hcomm]
  unique q r := by
    rw [LogSys.setPc_committing hcomm, LogSys.setPc_committing hcomm]
    exact h.unique q r
  quiet := h.quiet
  empty := h.empty
  cleared q hq := by
    by_cases hqp : q = p
    · simp_all
    · rw [s.setPc_pc_of_ne hqp] at hq
      exact h.cleared q hq
  asleep q hq := by
    by_cases hqp : q = p
    · simp_all
    · rw [s.setPc_pc_of_ne hqp] at hq
      exact h.asleep q hq
  panic := h.panic

/-! ## One lemma per move that touches the counters or the header -/

theorem GroupInv.admitted {s : LogSys} (h : GroupInv s) {p : Nat}
    (hpc : s.pc p = .idle ∨ s.pc p = .woken) (ha : s.log.Admits) :
    GroupInv ({ s with log := { s.log with outstanding := s.log.outstanding + 1 } }.setPc p .inOp)
    where
  outstanding := by
    obtain ⟨S, hS, hcard⟩ := h.outstanding
    refine ⟨insert p S, LogSys.OpSet.setPc_insert hS, ?_⟩
    have hnot : p ∉ S := fun hm => by simp_all [hS p, hpc]
    simp_all
  committer := by
    rw [LogSys.setPc_log, h.committer]
    exact exists_congr fun q => (LogSys.setPc_committing
      (iff_of_false (OpPc.not_committing_of_begin hpc) id) q).symm
  unique q r hq hr := by
    have hcomm := LogSys.setPc_committing (c := .inOp)
      (iff_of_false (OpPc.not_committing_of_begin hpc) id)
    exact h.unique q r ((hcomm q).mp hq) ((hcomm r).mp hr)
  quiet hc := by
    rw [LogSys.setPc_log] at hc
    rw [ha.1] at hc
    cases hc
  empty _ hout := by
    obtain ⟨S, hS, hcard⟩ := h.outstanding
    simp only [LogSys.setPc_log] at hout
    omega
  cleared q hq := by
    by_cases hqp : q = p
    · subst hqp
      simp at hq
    · rw [LogSys.setPc_pc_of_ne _ hqp] at hq
      exact h.cleared q hq
  asleep q hq := by
    by_cases hqp : q = p
    · subst hqp
      simp at hq
    · rw [LogSys.setPc_pc_of_ne _ hqp] at hq
      intro hadm
      -- one more operation only makes the test harder
      rw [LogVars.admits_iff] at hadm
      refine h.asleep q hq ((LogVars.admits_iff _).mpr ⟨hadm.1, ?_⟩)
      grind [LogSys.setPc_log]
  panic := h.panic

theorem GroupInv.logged {s : LogSys} (h : GroupInv s) {p b : Nat} (hpc : s.pc p = .inOp) :
    GroupInv { s with log := { s.log with lh := s.log.lh ++ [b] } } where
  outstanding := h.outstanding
  committer := h.committer
  unique := h.unique
  quiet := h.quiet
  empty _ hout := by
    have := (h.of_inOp hpc).1
    simp only at hout
    omega
  cleared q hq := by
    have hc := h.committer.mpr ⟨q, OpPc.committing_of_late hq⟩
    rw [(h.of_inOp hpc).2] at hc
    cases hc
  asleep q hq hadm := by
    -- a longer header only makes the test harder
    refine h.asleep q hq ⟨hadm.1, ?_⟩
    have h2 := hadm.2
    grind
  panic := h.panic

theorem GroupInv.lastOp {s : LogSys} (h : GroupInv s) {p : Nat} (hpc : s.pc p = .inOp)
    (hc : s.log.committing = false) (hout : s.log.outstanding = 1) :
    GroupInv ({ s with log := { s.log with outstanding := 0, committing := true } }.setPc p
      (.commit .test)) where
  outstanding := by
    obtain ⟨S, hS, hcard⟩ := h.outstanding
    refine ⟨S.erase p, LogSys.OpSet.setPc_erase hS (by simp), ?_⟩
    rw [card_erase_of_mem ((hS p).mpr hpc)]
    simp only [LogSys.setPc_log]
    omega
  committer := by
    refine iff_of_true rfl ⟨p, ?_⟩
    rw [LogSys.setPc_pc_self]
    trivial
  unique q r hq hr := by
    have honly : ∀ q, (({ s with log := { s.log with outstanding := 0, committing := true } }.setPc
        p (.commit .test)).pc q).Committing → q = p := by
      intro q hq
      by_contra hqp
      rw [LogSys.setPc_pc_of_ne _ hqp] at hq
      exact h.no_committer hc q hq
    rw [honly q hq, honly r hr]
  quiet _ := rfl
  empty hc' := by simp at hc'
  cleared q hq := by
    by_cases hqp : q = p
    · subst hqp
      simp at hq
    · rw [LogSys.setPc_pc_of_ne _ hqp] at hq
      exact absurd (OpPc.committing_of_late hq) (h.no_committer hc q)
  asleep q _ hadm := by
    have := hadm.1
    simp at this
  panic := h.panic

theorem GroupInv.leaves {s : LogSys} (h : GroupInv s) {p : Nat} (hpc : s.pc p = .inOp)
    (hc : s.log.committing = false) (hout : s.log.outstanding ≠ 1) :
    GroupInv (({ s with log := { s.log with outstanding := s.log.outstanding - 1 } }.wakeup).setPc
      p .idle) where
  outstanding := by
    obtain ⟨S, hS, hcard⟩ := h.outstanding
    refine ⟨S.erase p, LogSys.OpSet.setPc_erase (LogSys.OpSet.wakeup hS) (by simp), ?_⟩
    have hmem := (hS p).mpr hpc
    grind [card_erase_of_mem hmem, LogSys.setPc_log, LogSys.wakeup_log]
  committer := by
    refine iff_of_false (by simp [hc]) ?_
    rintro ⟨q, hq⟩
    by_cases hqp : q = p
    · subst hqp
      rw [LogSys.setPc_pc_self] at hq
      exact hq
    · rw [LogSys.setPc_pc_of_ne _ hqp, LogSys.wakeup_committing] at hq
      exact h.no_committer hc q hq
  unique q r hq := by
    by_cases hqp : q = p
    · subst hqp
      rw [LogSys.setPc_pc_self] at hq
      exact hq.elim
    · rw [LogSys.setPc_pc_of_ne _ hqp, LogSys.wakeup_committing] at hq
      exact absurd hq (h.no_committer hc q)
  quiet hc' := by simp_all
  empty _ hzero := by grind [LogSys.setPc_log, LogSys.wakeup_log]
  cleared q hq := by
    by_cases hqp : q = p
    · subst hqp
      simp at hq
    · rw [LogSys.setPc_pc_of_ne _ hqp] at hq
      have := LogSys.wakeup_committing (s := s) q
      exact absurd (this.mp (OpPc.committing_of_late hq)) (h.no_committer hc q)
  asleep q hq := by
    by_cases hqp : q = p
    · subst hqp
      simp at hq
    · rw [LogSys.setPc_pc_of_ne _ hqp] at hq
      exact absurd hq (LogSys.wakeup_not_asleep _ q)
  panic := h.panic

theorem GroupInv.clear {s : LogSys} (h : GroupInv s) {p : Nat}
    (hpc : s.pc p = .commit .clear) :
    GroupInv ({ s with log := { s.log with lh := [] } }.setPc p (.commit .eraseHead)) := by
  have hcleared : GroupInv { s with log := { s.log with lh := [] } } :=
    { outstanding := h.outstanding
      committer := h.committer
      unique := h.unique
      quiet := h.quiet
      empty := fun _ _ => rfl
      cleared := fun _ _ => rfl
      asleep := fun q hq hadm => by
        have hcom := h.committer.mpr ⟨p, by rw [hpc]; trivial⟩
        have := hadm.1
        grind
      panic := h.panic }
  refine hcleared.setPc (by simp [hpc]) (by simp) ?_ (by simp) (fun _ => rfl)
  simp only [hpc]
  exact iff_of_true trivial trivial

theorem GroupInv.endCommit {s : LogSys} (h : GroupInv s) {p : Nat} (hpc : s.pc p = .endCommit) :
    GroupInv (Xv6.endCommit s p) where
  outstanding := by
    obtain ⟨S, hS, hcard⟩ := h.outstanding
    refine ⟨S, ?_, hcard⟩
    have hw : ({ s with log := { s.log with committing := false } } : LogSys).wakeup.OpSet S :=
      LogSys.OpSet.wakeup hS
    refine hw.setPc_same ?_ (by simp)
    rw [Ne, LogSys.wakeup_pc (by simp) (by simp)]
    simp [hpc]
  committer := by
    refine iff_of_false (by simp [Xv6.endCommit]) ?_
    rintro ⟨q, hq⟩
    by_cases hqp : q = p
    · subst hqp
      rw [Xv6.endCommit, LogSys.setPc_pc_self] at hq
      exact hq
    · rw [Xv6.endCommit, LogSys.setPc_pc_of_ne _ hqp, LogSys.wakeup_committing] at hq
      exact hqp (h.unique q p hq (by rw [hpc]; trivial))
  unique q r hq := by
    by_cases hqp : q = p
    · subst hqp
      rw [Xv6.endCommit, LogSys.setPc_pc_self] at hq
      exact hq.elim
    · rw [Xv6.endCommit, LogSys.setPc_pc_of_ne _ hqp, LogSys.wakeup_committing] at hq
      exact absurd (h.unique q p hq (by rw [hpc]; trivial)) hqp
  quiet hc := by simp [Xv6.endCommit] at hc
  empty _ _ := h.cleared p (Or.inr hpc)
  cleared _ _ := h.cleared p (Or.inr hpc)
  asleep q hq := by
    by_cases hqp : q = p
    · subst hqp
      rw [Xv6.endCommit, LogSys.setPc_pc_self] at hq
      cases hq
    · rw [Xv6.endCommit, LogSys.setPc_pc_of_ne _ hqp] at hq
      exact absurd hq (LogSys.wakeup_not_asleep _ q)
  panic := h.panic

theorem GroupInv.commitStep {s : LogSys} (h : GroupInv s) {p : Nat} {ph : CommitPhase}
    (hpc : s.pc p = .commit ph) : GroupInv (Xv6.commitStep s p ph) := by
  have hcomm : ∀ c : OpPc, c.Committing → ((s.pc p).Committing ↔ c.Committing) := fun c hc =>
    iff_of_true (by rw [hpc]; trivial) hc
  cases ph with
  | test =>
    rw [Xv6.commitStep]
    split
    · exact h.setPc (by simp [hpc]) (by simp) (hcomm _ trivial) (by simp) (by simp)
    · rename_i hlen
      refine h.setPc (by simp [hpc]) (by simp) (hcomm _ trivial) (by simp) fun _ => ?_
      exact List.length_eq_zero_iff.mp (by omega)
  | writeLog => exact h.setPc (by simp [hpc]) (by simp) (hcomm _ trivial) (by simp) (by simp)
  | writeHead => exact h.setPc (by simp [hpc]) (by simp) (hcomm _ trivial) (by simp) (by simp)
  | installTrans =>
    exact h.setPc (by simp [hpc]) (by simp) (hcomm _ trivial) (by simp) (by simp)
  | clear => exact h.clear hpc
  | eraseHead =>
    exact h.setPc (by simp [hpc]) (by simp) (hcomm _ trivial) (by simp)
      fun _ => h.cleared p (Or.inl hpc)

/-! ## The invariant over a step and over a run -/

theorem groupInv_move {s s' : LogSys} {a : LogAct} (h : GroupInv s) (hm : LogMove s a s') :
    GroupInv s' := by
  cases hm with
  | admitted hpc ha => exact h.admitted hpc ha
  | sleeps hpc ha =>
    refine h.setPc ?_ (by simp) ?_ (fun _ => ha) (by simp)
    · rcases hpc with hpc | hpc <;> simp [hpc]
    · exact iff_of_false (OpPc.not_committing_of_begin hpc) id
  | tooBig => exact { h with panic := by simp }
  | outsideTrans => exact { h with panic := by simp }
  | absorbed => exact h
  | logged hpc => exact h.logged hpc
  | logCommitting hpc hc =>
    rw [(h.of_inOp hpc).2] at hc
    cases hc
  | lastOp hpc hc hout => exact h.lastOp hpc hc hout
  | leaves hpc hc hout => exact h.leaves hpc hc hout
  | commitStep hpc => exact h.commitStep hpc
  | endCommit hpc => exact h.endCommit hpc
  | kill hpc =>
    exact h.setPc (by simp [hpc]) (by simp) (iff_of_false (by rw [hpc]; exact id) id)
      (by simp) (by simp)

theorem groupInv_run {size : Nat} {acts : List LogAct} {s : LogSys}
    (h : logRun (LogSys.init size) acts = some s) : GroupInv s :=
  run_invariant (fun hs hstep => groupInv_move hs (logStep_move hstep).2) (groupInv_init size) h

/-- During a commit only a phase of the committing process's own
`commit()` changes the in-memory header. -/
theorem GroupInv.header_frame {s s' : LogSys} {a : LogAct} (h : GroupInv s)
    (hc : s.log.committing = true) (hstep : logStep s a = some s')
    (hlh : s'.log.lh ≠ s.log.lh) : ∃ p, a = .commitStep p ∧ (s.pc p).Committing := by
  have hmove := (logStep_move hstep).2
  cases hmove with
  | logged hpc =>
    rw [(h.of_inOp hpc).2] at hc
    cases hc
  | @commitStep p ph hpc => exact ⟨p, rfl, by rw [hpc]; trivial⟩
  | admitted | sleeps | tooBig | outsideTrans | absorbed | logCommitting | lastOp | leaves
  | endCommit | kill => exact absurd rfl hlh

/-- **Group-commit isolation and admission.** In every state reached by
any interleaving: during a commit no operation is outstanding and no
step but the committer's own changes the header; a quiescent log is
empty; the panic of `end_op` has not been reached; and nobody sleeps in
`begin_op` while the log is quiescent or while its test would succeed. -/
theorem group_commit_isolated {size : Nat} {acts : List LogAct} {s : LogSys}
    (h : logRun (LogSys.init size) acts = some s) :
    (s.log.committing = true → s.log.outstanding = 0
        ∧ ∀ a s', logStep s a = some s' → s'.log.lh ≠ s.log.lh →
            ∃ p, a = .commitStep p ∧ (s.pc p).Committing
              ∧ ∀ q, (s.pc q).Committing → q = p)
      ∧ (s.log.committing = false → s.log.outstanding = 0 → s.log.lh.length = 0)
      ∧ s.panic ≠ some .logCommitting
      ∧ ∀ p, s.pc p = .asleep →
          ¬(s.log.committing = false ∧ s.log.outstanding = 0) ∧ ¬s.log.Admits := by
  have hinv := groupInv_run h
  refine ⟨fun hc => ⟨hinv.quiet hc, fun a s' hstep hlh => ?_⟩, fun hc hout => ?_, hinv.panic,
    fun p hp => ⟨?_, hinv.asleep p hp⟩⟩
  · obtain ⟨p, rfl, hp⟩ := hinv.header_frame hc hstep hlh
    exact ⟨p, rfl, hp, fun q hq => hinv.unique q p hq hp⟩
  · rw [hinv.empty hc hout]
    rfl
  · -- an empty, quiescent log would have admitted the sleeper
    rintro ⟨hc, hout⟩
    refine hinv.asleep p hp ⟨hc, ?_⟩
    rw [hinv.empty hc hout, hout]
    decide

/-- Four processes: the fourth sleeps for space while three are inside. -/
theorem group_commit_isolated_four :
    ∃ s, logRun (LogSys.init LOGSIZE) [.beginOp 0, .beginOp 1, .beginOp 2, .beginOp 3] = some s
      ∧ s.pc 3 = .asleep ∧ ¬s.log.Admits := by
  obtain ⟨s, hs⟩ : ∃ s, logRun (LogSys.init LOGSIZE)
      [.beginOp 0, .beginOp 1, .beginOp 2, .beginOp 3] = some s := ⟨_, rfl⟩
  have hpc : s.pc 3 = .asleep := by
    cases hs
    rfl
  exact ⟨s, hs, hpc, ((group_commit_isolated hs).2.2.2 3 hpc).2⟩

end Xv6
