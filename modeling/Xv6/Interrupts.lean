import Xv6.StepSystem

/-!
# Interrupts and `push_off`

The interrupt-enable bit of each CPU, `c->noff` and `c->intena`, and the
kernel threads that nest `push_off`: the processes, and one scheduler
thread for each CPU. An action is taken by the thread that runs on its
CPU.

`push_off` reads the bit before it clears it. If interrupts are on, a
trap can come between the two, and a timer trap may go on to `yield` and
end on another CPU; so the read is a step of its own. From then on
interrupts are off, nothing else runs on the CPU and no other CPU uses
its fields: the rest of `push_off` is one step, and so is `pop_off`.

A thread leaves its CPU in `sched` only, with `p->lock` held, and the
scheduler thread of that CPU goes on with the `noff` and the `intena`
it finds there.
-/

namespace Xv6.Intr

/-- The lock of a process, or another spinlock. -/
inductive Lock where
  | proc (t : Nat)
  | other (k : Nat)
deriving DecidableEq

inductive Panic where
  | popOffInterruptible
  | popOff
  | acquire
  | release
  | schedLock
  | schedLocks
  | schedInterruptible
deriving DecidableEq

def Panic.message : Panic → String
  | .popOffInterruptible => "pop_off - interruptible"
  | .popOff => "pop_off"
  | .acquire => "acquire"
  | .release => "release"
  | .schedLock => "sched p->lock"
  | .schedLocks => "sched locks"
  | .schedInterruptible => "sched interruptible"

/-- Where a thread is. -/
inductive Ctl where
  /-- in ordinary code -/
  | run
  /-- in `push_off`, with `old` read; it goes on to take `lk`, if any -/
  | pushing (old : Bool) (lk : Option Lock)
  /-- in the loop of `acquire` -/
  | spinning (lk : Lock)
  /-- in `sched`, off the CPU, with `intena` in a local variable -/
  | parked (intena : Bool)
  /-- in `sched`, just switched to -/
  | resumed (intena : Bool)
  /-- a new process, which will start in `forkret` -/
  | fresh
deriving DecidableEq

/-- A kernel thread. `stack` has what its traps have interrupted; `held`
and `bare` are the `acquire`s and `push_off`s it has to undo. `entry` is
history: the interrupt bit at its outermost `push_off`. -/
structure Thread where
  ctl : Ctl
  stack : List Ctl
  held : List Lock
  bare : Nat
  entry : Bool

/-- How many `push_off`s are to be undone. -/
def Thread.nest (x : Thread) : Nat :=
  x.held.length + x.bare + match x.ctl with
    | .spinning _ => 1
    | _ => 0

/-- `struct cpu`, and the interrupt-enable bit. -/
structure Cpu where
  intr : Bool
  noff : Nat
  intena : Bool
  proc : Option Nat

/-- The CPUs, the processes, the scheduler threads and the locks with
the CPU that holds them. `back` says that the scheduler of a CPU was
switched to and has not yet released the lock it got. `returns` is
history: for each outermost `pop_off` of a process, the interrupt bit at
its `push_off` and when it returns. -/
structure Sys where
  cpu : Nat → Cpu
  proc : Nat → Thread
  sch : Nat → Thread
  back : Nat → Bool
  lock : Lock → Option Nat
  panic : Option Panic
  returns : List (Bool × Bool)

namespace Sys

variable (s : Sys) (c : Nat)

/-- The thread on CPU `c`. -/
def cur : Thread :=
  match (s.cpu c).proc with
  | none => s.sch c
  | some t => s.proc t

def setCpu (x : Cpu) : Sys := { s with cpu := Function.update s.cpu c x }

/-- Change the thread on CPU `c`. -/
def setCur (x : Thread) : Sys :=
  match (s.cpu c).proc with
  | none => { s with sch := Function.update s.sch c x }
  | some t => { s with proc := Function.update s.proc t x }

def die (p : Panic) : Sys := { s with panic := some p }

/-- The rest of `push_off`, after `old = intr_get()`. -/
def pushOff (old : Bool) : Sys :=
  let x := s.cpu c
  s.setCpu c { x with
    intr := false
    intena := if x.noff = 0 then old else x.intena
    noff := x.noff + 1 }

/-- `pop_off` by a thread that becomes `x`. -/
def popOff (x : Thread) : Sys :=
  let k := s.cpu c
  if k.intr = true then s.die .popOffInterruptible
  else if k.noff < 1 then s.die .popOff
  else
    let k' := { k with noff := k.noff - 1, intr := decide (k.noff - 1 = 0) && k.intena }
    let s' := (s.setCpu c k').setCur c x
    if x.nest = 0 then
      match k.proc with
      | none => { s' with back := Function.update s.back c false }
      | some _ => { s' with returns := s.returns ++ [(x.entry, k'.intr)] }
    else s'

end Sys

inductive Act where
  /-- `old = intr_get()` of a `push_off`, by itself or of `acquire(lk)` -/
  | read (c : Nat) (lk : Option Lock)
  /-- the rest of that `push_off` -/
  | push (c : Nat)
  /-- the loop of `acquire` finds the lock free -/
  | take (c : Nat)
  | release (c : Nat) (lk : Lock)
  | pop (c : Nat)
  /-- `intr_on` or `intr_off` outside all of these -/
  | setIntr (c : Nat) (on : Bool)
  /-- an interrupt in the kernel, and the return from it -/
  | trap (c : Nat)
  | trapRet (c : Nat)
  /-- `sched` up to its `swtch`, and after it -/
  | sched (c : Nat)
  | restore (c : Nat)
  /-- the `swtch` of the scheduler -/
  | dispatch (c t : Nat)
  /-- `allocproc` in the slot of a process that has exited -/
  | renew (t : Nat)

/-- Guards say that calls are balanced and that a thread gives up its CPU
only in `sched`, with exactly its lock held. -/
def step (s : Sys) : Act → Option Sys
  | .read c lk =>
      let x := s.cur c
      if s.panic = none ∧ x.ctl = .run then
        some (s.setCur c { x with ctl := .pushing (s.cpu c).intr lk })
      else none
  | .push c =>
      let x := s.cur c
      match x.ctl with
      | .pushing old lk =>
          if s.panic = none then
            let x := { x with entry := if x.nest = 0 then old else x.entry }
            let s := s.pushOff c old
            match lk with
            | none => some (s.setCur c { x with ctl := .run, bare := x.bare + 1 })
            | some lk =>
                let s := s.setCur c { x with ctl := .spinning lk }
                if s.lock lk = some c then some (s.die .acquire) else some s
          else none
      | _ => none
  | .take c =>
      let x := s.cur c
      match x.ctl with
      | .spinning lk =>
          if s.panic = none ∧ s.lock lk = none then
            let s := { s with lock := Function.update s.lock lk (some c) }
            some (s.setCur c { x with ctl := .run, held := lk :: x.held })
          else none
      | _ => none
  | .release c lk =>
      let x := s.cur c
      if s.panic = none ∧ x.ctl = .run ∧ lk ∈ x.held then
        if s.lock lk ≠ some c then some (s.die .release)
        else
          let s := { s with lock := Function.update s.lock lk none }
          some (s.popOff c { x with held := x.held.erase lk })
      else none
  | .pop c =>
      let x := s.cur c
      if s.panic = none ∧ x.ctl = .run ∧ 0 < x.bare then
        some (s.popOff c { x with bare := x.bare - 1 })
      else none
  | .setIntr c on =>
      let x := s.cur c
      if s.panic = none ∧ x.ctl = .run ∧ x.stack = [] ∧ x.nest = 0 then
        some (s.setCpu c { s.cpu c with intr := on })
      else none
  | .trap c =>
      let x := s.cur c
      if s.panic = none ∧ (s.cpu c).intr = true then
        some ((s.setCpu c { s.cpu c with intr := false }).setCur c
          { x with ctl := .run, stack := x.ctl :: x.stack })
      else none
  | .trapRet c =>
      let x := s.cur c
      match x.stack with
      | ctl :: stack =>
          if s.panic = none ∧ x.ctl = .run ∧ x.nest = 0 then
            some ((s.setCpu c { s.cpu c with intr := true }).setCur c
              { x with ctl := ctl, stack := stack })
          else none
      | [] => none
  | .sched c =>
      match (s.cpu c).proc with
      | none => none
      | some t =>
          let x := s.proc t
          if s.panic = none ∧ x.ctl = .run ∧ x.held = [.proc t] ∧ x.bare = 0 then
            if s.lock (.proc t) ≠ some c then some (s.die .schedLock)
            else if (s.cpu c).noff ≠ 1 then some (s.die .schedLocks)
            else if (s.cpu c).intr = true then some (s.die .schedInterruptible)
            else
              some { s with
                proc := Function.update s.proc t { x with ctl := .parked (s.cpu c).intena }
                cpu := Function.update s.cpu c { s.cpu c with proc := none }
                back := Function.update s.back c true }
          else none
  | .restore c =>
      let x := s.cur c
      match x.ctl with
      | .resumed intena =>
          if s.panic = none then
            some ((s.setCpu c { s.cpu c with intena := intena }).setCur c { x with ctl := .run })
          else none
      | _ => none
  | .dispatch c t =>
      let x := s.sch c
      if s.panic = none ∧ (s.cpu c).proc = none ∧ x.ctl = .run ∧ x.stack = [] ∧
          x.held = [.proc t] ∧ x.bare = 0 ∧ s.back c = false then
        let cpu := Function.update s.cpu c { s.cpu c with proc := some t }
        match (s.proc t).ctl with
        | .parked intena =>
            some { s with
              cpu := cpu
              proc := Function.update s.proc t { s.proc t with ctl := .resumed intena } }
        | .fresh =>
            -- it starts with the lock that the scheduler has taken
            some { s with
              cpu := cpu
              proc := Function.update s.proc t { s.proc t with ctl := .run, entry := x.entry } }
        | _ => none
      else none
  | .renew t =>
      match (s.proc t).ctl with
      | .parked _ =>
          if s.panic = none then
            some { s with
              proc := Function.update s.proc t
                { s.proc t with ctl := .fresh, stack := [], held := [.proc t], bare := 0 } }
          else none
      | _ => none

end Xv6.Intr
