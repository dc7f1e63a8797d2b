import Xv6.Layout
import Xv6.StepSystem

/-!
# `begin_op`, `log_write` and `end_op` by any number of processes

The concurrent face of `log.c`: processes enter and leave file-system
operations, log blocks, sleep for log space and commit. Each `log.lock`
critical section is one atomic action; `commit()` runs outside the lock
and is cut into its phases, any other process's action may fall between
two of them. `sleep` releases the lock and sleeps atomically, `wakeup`
makes every sleeper runnable again, and a runnable process still has to
retake the lock and repeat its test.

A process is sequential, so a `log_write` or an `end_op` is only taken
by a process between its `begin_op` and its `end_op`. A panic stops the
machine: no action is enabled after it.
-/

namespace Xv6

/-! ## State -/

/-- The part of `struct log` the lock protects. The in-memory header is
the list `lh.block[0..lh.n)`. -/
structure LogVars where
  size : Nat
  outstanding : Int
  committing : Bool
  lh : List Nat
deriving DecidableEq, Repr

/-- What the committing process is about to do next in `commit()`. -/
inductive CommitPhase where
  | test
  | writeLog
  | writeHead
  | installTrans
  | clear
  | eraseHead
deriving DecidableEq, Repr

/-- Where a process stands with respect to the log. -/
inductive OpPc where
  /-- Outside any file-system operation. -/
  | idle
  /-- SLEEPING on `&log` inside `begin_op`. -/
  | asleep
  /-- Runnable inside `begin_op`, about to repeat the test. -/
  | woken
  /-- Between `begin_op` and `end_op`. -/
  | inOp
  /-- In `end_op` with `do_commit` set, running `commit()`. -/
  | commit (ph : CommitPhase)
  /-- `commit()` has returned, `committing` is still to be cleared. -/
  | endCommit
deriving DecidableEq, Repr

inductive LogPanic where
  | tooBig
  | outsideTrans
  | logCommitting
deriving DecidableEq, Repr

/-- The message `panic` prints. -/
def LogPanic.message : LogPanic → String
  | .tooBig => "too big a transaction"
  | .outsideTrans => "log_write outside of trans"
  | .logCommitting => "log.committing"

structure LogSys where
  log : LogVars
  pc : Nat → OpPc
  panic : Option LogPanic

/-- After `initlog`: nobody is in an operation, the header is empty. -/
def LogSys.init (size : Nat) : LogSys :=
  { log := { size := size, outstanding := 0, committing := false, lh := [] }
    pc := fun _ => .idle
    panic := none }

def LogSys.setPc (s : LogSys) (p : Nat) (c : OpPc) : LogSys :=
  { s with pc := Function.update s.pc p c }

/-- `wakeup(&log)`. -/
def LogSys.wakeup (s : LogSys) : LogSys :=
  { s with pc := fun p => if s.pc p = .asleep then .woken else s.pc p }

/-! ## The critical sections -/

/-- `begin_op` goes past both of its tests. -/
def LogVars.Admits (l : LogVars) : Prop :=
  l.committing = false ∧ (l.lh.length : Int) + (l.outstanding + 1) * MAXOPBLOCKS ≤ LOGSIZE

/-- One turn of the loop of `begin_op`. -/
def beginOp (s : LogSys) (p : Nat) : LogSys :=
  if s.log.committing then s.setPc p .asleep
  else if (s.log.lh.length : Int) + (s.log.outstanding + 1) * MAXOPBLOCKS > LOGSIZE then
    s.setPc p .asleep
  else
    { s with log := { s.log with outstanding := s.log.outstanding + 1 } }.setPc p .inOp

def logWrite (s : LogSys) (b : Nat) : LogSys :=
  if s.log.lh.length ≥ LOGSIZE ∨ (s.log.lh.length : Int) ≥ (s.log.size : Int) - 1 then
    { s with panic := some .tooBig }
  else if s.log.outstanding < 1 then
    { s with panic := some .outsideTrans }
  else if b ∈ s.log.lh then s -- log absorption
  else { s with log := { s.log with lh := s.log.lh ++ [b] } }

/-- The first critical section of `end_op`. -/
def endOp (s : LogSys) (p : Nat) : LogSys :=
  let s := { s with log := { s.log with outstanding := s.log.outstanding - 1 } }
  if s.log.committing then { s with panic := some .logCommitting }
  else if s.log.outstanding = 0 then
    { s with log := { s.log with committing := true } }.setPc p (.commit .test)
  else s.wakeup.setPc p .idle

/-- One phase of `commit()`, run without the lock. -/
def commitStep (s : LogSys) (p : Nat) : CommitPhase → LogSys
  | .test =>
      if s.log.lh.length > 0 then s.setPc p (.commit .writeLog) else s.setPc p .endCommit
  | .writeLog => s.setPc p (.commit .writeHead)
  | .writeHead => s.setPc p (.commit .installTrans)
  | .installTrans => s.setPc p (.commit .clear)
  | .clear => { s with log := { s.log with lh := [] } }.setPc p (.commit .eraseHead)
  | .eraseHead => s.setPc p .endCommit

/-- The second critical section of `end_op`. -/
def endCommit (s : LogSys) (p : Nat) : LogSys :=
  { s with log := { s.log with committing := false } }.wakeup.setPc p .idle

/-! ## Interleavings -/

inductive LogAct where
  /-- Process `p` calls `begin_op`, or, woken, repeats its test. -/
  | beginOp (p : Nat)
  | logWrite (p b : Nat)
  | endOp (p : Nat)
  | commitStep (p : Nat)
  | endCommit (p : Nat)
  /-- `kill` makes the sleeping process `p` runnable. -/
  | kill (p : Nat)
deriving DecidableEq, Repr

def logStep (s : LogSys) (a : LogAct) : Option LogSys :=
  if s.panic.isSome then none
  else
    match a with
    | .beginOp p => if s.pc p = .idle ∨ s.pc p = .woken then some (beginOp s p) else none
    | .logWrite p b => if s.pc p = .inOp then some (logWrite s b) else none
    | .endOp p => if s.pc p = .inOp then some (endOp s p) else none
    | .commitStep p =>
        match s.pc p with
        | .commit ph => some (commitStep s p ph)
        | _ => none
    | .endCommit p => if s.pc p = .endCommit then some (endCommit s p) else none
    | .kill p => if s.pc p = .asleep then some (s.setPc p .woken) else none

/-- Replay an interleaving. -/
abbrev logRun : LogSys → List LogAct → Option LogSys := StepSystem.run logStep

/-! ## Small facts about the state -/

@[simp] theorem LogSys.setPc_log (s : LogSys) (p : Nat) (c : OpPc) :
    (s.setPc p c).log = s.log := rfl

@[simp] theorem LogSys.setPc_pc_self (s : LogSys) (p : Nat) (c : OpPc) :
    (s.setPc p c).pc p = c := by
  simp [setPc]

theorem LogSys.setPc_pc_of_ne (s : LogSys) {p q : Nat} (h : q ≠ p) (c : OpPc) :
    (s.setPc p c).pc q = s.pc q := by
  simp [setPc, Function.update_of_ne h]

@[simp] theorem LogSys.wakeup_log (s : LogSys) : s.wakeup.log = s.log := rfl

theorem LogSys.wakeup_not_asleep (s : LogSys) (p : Nat) : s.wakeup.pc p ≠ .asleep := by
  grind [wakeup]

/-- `wakeup` touches sleepers only. -/
theorem LogSys.wakeup_pc {s : LogSys} {p : Nat} {c : OpPc} (hc : c ≠ .woken) (hc' : c ≠ .asleep) :
    s.wakeup.pc p = c ↔ s.pc p = c := by
  simp only [wakeup]
  split
  · grind
  · exact Iff.rfl

instance (l : LogVars) : Decidable l.Admits := inferInstanceAs (Decidable (_ ∧ _))

/-- The admission test in numerals. -/
theorem LogVars.admits_iff (l : LogVars) :
    l.Admits ↔ l.committing = false ∧ (l.lh.length : Int) + (l.outstanding + 1) * 10 ≤ 30 :=
  Iff.rfl

/-! ## What one action can do -/

/-- The moves of the system, one constructor per branch of the code. -/
inductive LogMove (s : LogSys) : LogAct → LogSys → Prop
  | admitted {p : Nat} (hpc : s.pc p = .idle ∨ s.pc p = .woken) (h : s.log.Admits) :
      LogMove s (.beginOp p)
        ({ s with log := { s.log with outstanding := s.log.outstanding + 1 } }.setPc p .inOp)
  | sleeps {p : Nat} (hpc : s.pc p = .idle ∨ s.pc p = .woken) (h : ¬s.log.Admits) :
      LogMove s (.beginOp p) (s.setPc p .asleep)
  | tooBig {p b : Nat} (hpc : s.pc p = .inOp)
      (h : s.log.lh.length ≥ LOGSIZE ∨ (s.log.lh.length : Int) ≥ (s.log.size : Int) - 1) :
      LogMove s (.logWrite p b) { s with panic := some .tooBig }
  | outsideTrans {p b : Nat} (hpc : s.pc p = .inOp) (h : s.log.outstanding < 1) :
      LogMove s (.logWrite p b) { s with panic := some .outsideTrans }
  | absorbed {p b : Nat} (hpc : s.pc p = .inOp) (hroom : s.log.lh.length < LOGSIZE)
      (hsize : (s.log.lh.length : Int) < (s.log.size : Int) - 1) (hb : b ∈ s.log.lh) :
      LogMove s (.logWrite p b) s
  | logged {p b : Nat} (hpc : s.pc p = .inOp) (hroom : s.log.lh.length < LOGSIZE)
      (hsize : (s.log.lh.length : Int) < (s.log.size : Int) - 1) (hb : b ∉ s.log.lh) :
      LogMove s (.logWrite p b) { s with log := { s.log with lh := s.log.lh ++ [b] } }
  | logCommitting {p : Nat} (hpc : s.pc p = .inOp) (h : s.log.committing = true) :
      LogMove s (.endOp p)
        { s with log := { s.log with outstanding := s.log.outstanding - 1 }
                 panic := some .logCommitting }
  | lastOp {p : Nat} (hpc : s.pc p = .inOp) (hc : s.log.committing = false)
      (h : s.log.outstanding = 1) :
      LogMove s (.endOp p)
        ({ s with log := { s.log with outstanding := 0, committing := true } }.setPc p
          (.commit .test))
  | leaves {p : Nat} (hpc : s.pc p = .inOp) (hc : s.log.committing = false)
      (h : s.log.outstanding ≠ 1) :
      LogMove s (.endOp p)
        (({ s with log := { s.log with outstanding := s.log.outstanding - 1 } }.wakeup).setPc p
          .idle)
  | commitStep {p : Nat} {ph : CommitPhase} (hpc : s.pc p = .commit ph) :
      LogMove s (.commitStep p) (commitStep s p ph)
  | endCommit {p : Nat} (hpc : s.pc p = .endCommit) :
      LogMove s (.endCommit p) (endCommit s p)
  | kill {p : Nat} (hpc : s.pc p = .asleep) : LogMove s (.kill p) (s.setPc p .woken)

theorem beginOp_move {s : LogSys} {p : Nat} (hpc : s.pc p = .idle ∨ s.pc p = .woken) :
    LogMove s (.beginOp p) (beginOp s p) := by
  unfold beginOp
  split
  · rename_i hc
    exact .sleeps hpc fun h => by rw [h.1] at hc; cases hc
  · rename_i hc
    split
    · rename_i hfull
      exact .sleeps hpc fun h => absurd h.2 (by omega)
    · rename_i hroom
      exact .admitted hpc ⟨by simpa using hc, by omega⟩

theorem logWrite_move {s : LogSys} {p b : Nat} (hpc : s.pc p = .inOp) :
    LogMove s (.logWrite p b) (logWrite s b) := by
  unfold logWrite
  split
  · rename_i h
    exact .tooBig hpc h
  · rename_i h
    rw [not_or] at h
    split
    · rename_i hout
      exact .outsideTrans hpc hout
    · split
      · constructor <;> grind
      · constructor <;> grind

theorem endOp_move {s : LogSys} {p : Nat} (hpc : s.pc p = .inOp) :
    LogMove s (.endOp p) (endOp s p) := by
  unfold endOp
  dsimp only
  split
  · rename_i hc
    exact .logCommitting hpc hc
  · rename_i hc
    have hc' : s.log.committing = false := by simpa using hc
    split
    · rename_i hlast
      rw [hlast]
      exact .lastOp hpc hc' (by omega)
    · rename_i hmore
      exact .leaves hpc hc' (by omega)

/-- **Inversion**: every enabled action is one of the moves, taken on a
machine that has not panicked. -/
theorem logStep_move {s s' : LogSys} {a : LogAct} (h : logStep s a = some s') :
    s.panic = none ∧ LogMove s a s' := by
  unfold logStep at h
  split at h
  · cases h
  · rename_i hp
    refine ⟨by simpa using hp, ?_⟩
    cases a with
    | beginOp p =>
      dsimp only at h
      grind [beginOp_move]
    | logWrite p b =>
      dsimp only at h
      grind [logWrite_move]
    | endOp p =>
      grind [endOp_move]
    | commitStep p =>
      dsimp only at h
      split at h
      · rename_i ph hpc
        cases h
        exact .commitStep hpc
      · cases h
    | endCommit p =>
      dsimp only at h
      split at h
      · rename_i hpc
        cases h
        exact .endCommit hpc
      · cases h
    | kill p =>
      dsimp only at h
      split at h
      · rename_i hpc
        cases h
        exact .kill hpc
      · cases h

end Xv6
