import Xv6.Exec
import Xv6.StepSystem

/-!
# Processes and their memory

The calls that allocate and free pages: `fork`, `exit`, `wait`, `exec`,
`sbrk`, `pipe` and `close`, with what boot does before (`kinit`,
`kvminit`, `userinit`). A call is one step; a system is one of `np`
process slots. Sleeping, running and being runnable are not
distinguished here: a process that can make a call is `runnable`.
-/

namespace Xv6.Vm

open Function List

open ByteVec (Byte leNat leBytes)

/-- `enum { FD_NONE, FD_PIPE, FD_INODE, FD_DEVICE }`. -/
inductive FdType where
  | none | pipe | inode | device
  deriving DecidableEq

/-- `struct file`, with the page of the pipe or the inode behind it. -/
structure File where
  ref : Nat
  type : FdType
  readable : Bool
  writable : Bool
  pipe : Nat
  ip : Nat

/-- `struct proc`, without what only scheduling uses. Inodes are named
by their table index. -/
structure Proc (np : Nat) where
  state : ProcState
  pid : Nat
  parent : Option (Fin np)
  killed : Bool
  xstate : Nat
  sz : Nat
  pagetable : Option Nat
  trapframe : Option Nat
  ofile : Fin NOFILE → Option (Fin NFILE)
  cwd : Option Nat
  traceMask : Nat
  name : List Byte

/-- An unused slot. -/
def Proc.empty (np : Nat) : Proc np where
  state := .unused
  pid := 0
  parent := none
  killed := false
  xstate := 0
  sz := 0
  pagetable := none
  trapframe := none
  ofile _ := none
  cwd := none
  traceMask := 0
  name := []

structure KSys (np : Nat) where
  kmem : Kmem
  proc : Fin np → Proc np
  file : Fin NFILE → File
  /-- inode reference counts -/
  iref : Nat → Nat
  initproc : Option (Fin np)
  nextpid : Nat
  kpgtbl : Option Nat

variable {np : Nat}

def KSys.setMem (S : KSys np) (k : Kmem) : KSys np := { S with kmem := k }

def KSys.setProc (S : KSys np) (p : Fin np) (x : Proc np) : KSys np :=
  { S with proc := update S.proc p x }

def KSys.setFile (S : KSys np) (f : Fin NFILE) (x : File) : KSys np :=
  { S with file := update S.file f x }

def KSys.setFd (S : KSys np) (p : Fin np) (fd : Fin NOFILE) (f : Option (Fin NFILE)) : KSys np :=
  S.setProc p { S.proc p with ofile := update (S.proc p).ofile fd f }

/-! ## `file.c` and `pipe.c` -/

/-- The offsets of `readopen` and `writeopen` in `struct pipe`, behind a
spinlock, 512 bytes of data and two counters. -/
abbrev readopenOff : Nat := 544
abbrev writeopenOff : Nat := 548

def KSys.pipeWord (S : KSys np) (pi off : Nat) : Nat := (S.kmem.cell pi).word 4 off

def KSys.setPipeWord (S : KSys np) (pi off w : Nat) : KSys np :=
  S.setMem (S.kmem.setPage pi ((S.kmem.cell pi).setWord 4 off w))

def filealloc (S : KSys np) : Option (Fin NFILE × KSys np) :=
  match (finRange NFILE).find? fun f => decide ((S.file f).ref = 0) with
  | none => none
  | some f => some (f, S.setFile f { S.file f with ref := 1 })

def filedup (S : KSys np) (f : Fin NFILE) : Except KPanic (KSys np) :=
  if (S.file f).ref < 1 then .error .filedup
  else .ok (S.setFile f { S.file f with ref := (S.file f).ref + 1 })

def pipeclose (M : Machine) (S : KSys np) (pi : Nat) (writable : Bool) :
    Except KPanic (KSys np) :=
  let S := S.setPipeWord pi (if writable then writeopenOff else readopenOff) 0
  if S.pipeWord pi readopenOff = 0 ∧ S.pipeWord pi writeopenOff = 0 then do
    let k ← kfree M S.kmem pi
    .ok (S.setMem k)
  else .ok S

/-- `iput` of the inode behind a file or of a directory. -/
def iputRef (S : KSys np) (ip : Nat) : KSys np :=
  { S with iref := update S.iref ip (S.iref ip - 1) }

def fileclose (M : Machine) (S : KSys np) (f : Fin NFILE) : Except KPanic (KSys np) :=
  let ff := S.file f
  if ff.ref < 1 then .error .fileclose
  else if 0 < ff.ref - 1 then .ok (S.setFile f { ff with ref := ff.ref - 1 })
  else
    let S := S.setFile f { ff with ref := 0, type := .none }
    match ff.type with
    | .pipe => pipeclose M S ff.pipe ff.writable
    | .inode | .device => .ok (iputRef S ff.ip)
    | .none => .ok S

def fdalloc (S : KSys np) (p : Fin np) (f : Fin NFILE) : Option (Fin NOFILE × KSys np) :=
  match (finRange NOFILE).find? fun fd => decide ((S.proc p).ofile fd = none) with
  | none => none
  | some fd => some (fd, S.setFd p fd (some f))

/-- The files that were allocated before something failed. -/
def pipeallocBad (M : Machine) (S : KSys np) : List (Fin NFILE) → Except KPanic (KSys np)
  | [] => .ok S
  | f :: fs => do
      let S ← fileclose M S f
      pipeallocBad M S fs

/-- The two files of a new pipe. -/
def pipealloc (M : Machine) (S : KSys np) :
    Except KPanic (Option (Fin NFILE × Fin NFILE) × KSys np) :=
  match filealloc S with
  | none => .ok (none, S)
  | some (f0, S) =>
      match filealloc S with
      | none => do
          let S ← pipeallocBad M S [f0]
          .ok (none, S)
      | some (f1, S) =>
          match kalloc S.kmem with
          | (none, k) => do
              let S ← pipeallocBad M (S.setMem k) [f0, f1]
              .ok (none, S)
          | (some pi, k) =>
              let S := ((S.setMem k).setPipeWord pi readopenOff 1).setPipeWord pi writeopenOff 1
              let S := (S.setPipeWord pi 540 0).setPipeWord pi 536 0
              let S := S.setFile f0
                { S.file f0 with type := .pipe, readable := true, writable := false, pipe := pi }
              let S := S.setFile f1
                { S.file f1 with type := .pipe, readable := false, writable := true, pipe := pi }
              .ok (some (f0, f1), S)

/-! ## `proc.c` -/

/-- `freeproc`. The open files and the current directory are not
touched. -/
def freeproc (M : Machine) (S : KSys np) (p : Fin np) : Except KPanic (KSys np) := do
  let x := S.proc p
  let k ← (match x.trapframe with
    | some tf => kfree M S.kmem tf
    | none => .ok S.kmem)
  let k ← (match x.pagetable with
    | some pt => procFreepagetable M k pt x.sz
    | none => .ok k)
  .ok ((S.setMem k).setProc p { x with
    trapframe := none
    pagetable := none
    sz := 0
    pid := 0
    parent := none
    name := []
    killed := false
    xstate := 0
    state := .unused })

/-- `p->pid = allocpid(); p->state = USED`. -/
def claimProc (S : KSys np) (p : Fin np) : KSys np :=
  ({ S with nextpid := S.nextpid + 1 } : KSys np).setProc p
    { S.proc p with pid := S.nextpid, state := .used }

/-- `allocproc`: a slot in state `USED`, with a trapframe and an empty
address space. -/
def allocproc (M : Machine) (S : KSys np) : Except KPanic (Option (Fin np) × KSys np) :=
  match (finRange np).find? fun p => decide ((S.proc p).state = .unused) with
  | none => .ok (none, S)
  | some p =>
      let S := claimProc S p
      match kalloc S.kmem with
      | (none, k) => do
          let S ← freeproc M ((S.setMem k).setProc p { S.proc p with trapframe := none }) p
          .ok (none, S)
      | (some tf, k) => do
          let S := (S.setMem k).setProc p { S.proc p with trapframe := some tf }
          let (pt, k) ← procPagetable M S.kmem tf
          let S := (S.setMem k).setProc p { S.proc p with pagetable := pt }
          match pt with
          | none => do
              let S ← freeproc M S p
              .ok (none, S)
          | some _ => .ok (some p, S)

/-- `growproc` with an `int` argument, on the 32-bit copy of the size. -/
def growproc (M : Machine) (S : KSys np) (p : Fin np) (n : Int) : Except KPanic (Int × KSys np) :=
  let x := S.proc p
  let sz := x.sz % 2 ^ 32
  let newsz := ((sz + n) % 2 ^ 32).toNat
  match x.pagetable with
  | none => .error .nullPointer
  | some pt =>
      if 0 < n then do
        let (r, k) ← uvmalloc M S.kmem pt sz newsz
        if r % 2 ^ 32 = 0 then .ok (-1, S.setMem k)
        else .ok (0, (S.setMem k).setProc p { x with sz := r % 2 ^ 32 })
      else if n < 0 then do
        let (r, k) ← uvmdealloc M S.kmem pt sz newsz
        .ok (0, (S.setMem k).setProc p { x with sz := r % 2 ^ 32 })
      else .ok (0, S.setProc p { x with sz := sz })

/-- The loop of `fork` over the open files, for those of `fds`. -/
def dupFiles (p q : Fin np) : List (Fin NOFILE) → KSys np → Except KPanic (KSys np)
  | [], S => .ok S
  | fd :: fds, S =>
      match (S.proc p).ofile fd with
      | none => dupFiles p q fds S
      | some f => do
          let S ← filedup S f
          dupFiles p q fds (S.setFd q fd (some f))

/-- The size of `struct trapframe` and the offsets of its fields. -/
abbrev trapframeSize : Nat := 288
abbrev epcOff : Nat := 24
abbrev spOff : Nat := 48
abbrev a0Off : Nat := 112
abbrev a1Off : Nat := 120

/-- The last lines of `fork`: directory, name and parent of the child,
which becomes runnable. -/
def forkRunnable (S : KSys np) (p q : Fin np) : KSys np :=
  let S := match (S.proc p).cwd with
    | some ip => { S with iref := update S.iref ip (S.iref ip + 1) }
    | none => S
  S.setProc q { S.proc q with
    cwd := (S.proc p).cwd, name := (S.proc p).name, parent := some p, state := .runnable }

/-- The part of `fork` after the memory is copied. -/
def forkFinish (S : KSys np) (p q : Fin np) (tf qtf : Nat) : Except KPanic (Int × KSys np) := do
  let S := S.setProc q { S.proc q with sz := (S.proc p).sz, traceMask := (S.proc p).traceMask }
  let k := S.kmem.setPage qtf
    ((S.kmem.cell qtf).patch 0 ((S.kmem.cell tf).slice 0 trapframeSize))
  let k := k.setPage qtf ((k.cell qtf).setWord 8 a0Off 0)
  let S ← dupFiles p q (finRange NOFILE) (S.setMem k)
  .ok ((S.proc q).pid, forkRunnable S p q)

def fork (M : Machine) (S : KSys np) (p : Fin np) : Except KPanic (Int × KSys np) := do
  let (q, S) ← allocproc M S
  match q with
  | none => .ok (-1, S)
  | some q =>
      match (S.proc p).pagetable, (S.proc p).trapframe, (S.proc q).pagetable,
        (S.proc q).trapframe with
      | some old, some tf, some new, some qtf => do
          let (done, k) ← uvmcopy M S.kmem old new (S.proc p).sz
          if done then forkFinish (S.setMem k) p q tf qtf
          else do
            let S ← freeproc M (S.setMem k) q
            .ok (-1, S)
      | _, _, _, _ => .error .nullPointer

/-- `reparent`: `p`'s children go to `initproc`. -/
def reparent (S : KSys np) (p : Fin np) : KSys np :=
  { S with proc := fun q =>
      if (S.proc q).parent = some p then { S.proc q with parent := S.initproc } else S.proc q }

/-- The loop of `exit` over the open files, for those of `fds`. -/
def closeFiles (M : Machine) (p : Fin np) : List (Fin NOFILE) → KSys np → Except KPanic (KSys np)
  | [], S => .ok S
  | fd :: fds, S =>
      match (S.proc p).ofile fd with
      | none => closeFiles M p fds S
      | some f => do
          let S ← fileclose M S f
          closeFiles M p fds (S.setFd p fd none)

def exit (M : Machine) (S : KSys np) (p : Fin np) (status : Nat) : Except KPanic (KSys np) :=
  if S.initproc = some p then .error .initExiting
  else do
    let S ← closeFiles M p (finRange NOFILE) S
    let S := match (S.proc p).cwd with
      | some ip => iputRef S ip
      | none => S
    let S := reparent (S.setProc p { S.proc p with cwd := none }) p
    .ok (S.setProc p { S.proc p with xstate := status, state := .zombie })

/-- `wait`; no result when the caller sleeps. -/
def wait (M : Machine) (S : KSys np) (p : Fin np) (addr : Nat) :
    Except KPanic (Option (Int × KSys np)) :=
  match (finRange np).find? fun q =>
      decide ((S.proc q).parent = some p ∧ (S.proc q).state = .zombie) with
  | some q =>
      match (S.proc p).pagetable with
      | none => .error .nullPointer
      | some pt =>
          match (if addr = 0 then (true, S.kmem)
            else copyout S.kmem pt addr (leBytes 4 (S.proc q).xstate)) with
          | (false, k) => .ok (some (-1, S.setMem k))
          | (true, k) => do
              let pid := (S.proc q).pid
              let S ← freeproc M (S.setMem k) q
              .ok (some (pid, S))
  | none =>
      if (∀ q, (S.proc q).parent ≠ some p) ∨ (S.proc p).killed = true then .ok (some (-1, S))
      else .ok none

/-- `userinit`, with the code of the first process. The inode of its
current directory is the first of the table. -/
def userinit (M : Machine) (S : KSys np) (initcode : List Byte) : Except KPanic (KSys np) := do
  let (p, S) ← allocproc M S
  match p with
  | none => .error .nullPointer
  | some p =>
      match (S.proc p).pagetable, (S.proc p).trapframe with
      | some pt, some tf => do
          let k ← uvminit S.kmem pt initcode
          let k := k.setPage tf ((k.cell tf).setWord 8 epcOff 0)
          let k := k.setPage tf ((k.cell tf).setWord 8 spOff PGSIZE)
          .ok { (S.setMem k).setProc p { S.proc p with
              sz := PGSIZE
              name := [105, 110, 105, 116, 99, 111, 100, 101]
              cwd := some 0
              state := .runnable } with
            initproc := some p
            iref := update S.iref 0 (S.iref 0 + 1) }
      | _, _ => .error .nullPointer

/-! ## System calls -/

/-- `sys_sbrk`. -/
def sysSbrk (M : Machine) (S : KSys np) (p : Fin np) (n : Int) : Except KPanic (Int × KSys np) := do
  let addr := toInt32 ((S.proc p).sz % 2 ^ 32)
  let (r, S) ← growproc M S p n
  .ok (if r < 0 then -1 else addr, S)

/-- `sys_close`, with the descriptor checked. -/
def sysClose (M : Machine) (S : KSys np) (p : Fin np) (fd : Fin NOFILE) :
    Except KPanic (Int × KSys np) :=
  match (S.proc p).ofile fd with
  | none => .ok (-1, S)
  | some f => do
      let S ← fileclose M (S.setFd p fd none) f
      .ok (0, S)

/-- `sys_dup`, with the descriptor checked. -/
def sysDup (S : KSys np) (p : Fin np) (fd : Fin NOFILE) : Except KPanic (Int × KSys np) :=
  match (S.proc p).ofile fd with
  | none => .ok (-1, S)
  | some f =>
      match fdalloc S p f with
      | none => .ok (-1, S)
      | some (fd, S) => do
          let S ← filedup S f
          .ok (fd.val, S)

/-- `sys_pipe`. -/
def sysPipe (M : Machine) (S : KSys np) (p : Fin np) (fdarray : Nat) :
    Except KPanic (Int × KSys np) := do
  let (files, S) ← pipealloc M S
  match files with
  | none => .ok (-1, S)
  | some (rf, wf) =>
      let undo (S : KSys np) : Except KPanic (Int × KSys np) := do
        let S ← fileclose M S rf
        let S ← fileclose M S wf
        .ok (-1, S)
      match fdalloc S p rf with
      | none => undo S
      | some (fd0, S) =>
          match fdalloc S p wf with
          | none => undo (S.setFd p fd0 none)
          | some (fd1, S) =>
              match (S.proc p).pagetable with
              | none => .error .nullPointer
              | some pt =>
                  match copyout S.kmem pt fdarray (leBytes 4 fd0.val) with
                  | (false, k) => undo (((S.setMem k).setFd p fd0 none).setFd p fd1 none)
                  | (true, k) =>
                      match copyout k pt ((fdarray + 4) % 2 ^ 64) (leBytes 4 fd1.val) with
                      | (false, k) => undo (((S.setMem k).setFd p fd0 none).setFd p fd1 none)
                      | (true, k) => .ok (0, S.setMem k)

/-- `fetchaddr`. -/
def fetchaddr (k : Kmem) (pagetable sz addr : Nat) : Option Nat :=
  if sz ≤ addr ∨ sz < (addr + 8) % 2 ^ 64 then none
  else (copyin k pagetable addr 8).map leNat

/-- The loop of `sys_exec` that fetches the argument strings, each into a
page of its own; `argv` holds the pages so far, the last one first. -/
def fetchArgs (pagetable sz uargv : Nat) : Nat → Kmem → List Nat → Bool × List Nat × Kmem
  | 0, k, argv => (false, argv, k)
  | n + 1, k, argv =>
      match fetchaddr k pagetable sz ((uargv + 8 * argv.length) % 2 ^ 64) with
      | none => (false, argv, k)
      | some uarg =>
          if uarg = 0 then (true, argv, k)
          else
            match kalloc k with
            | (none, k) => (false, argv, k)
            | (some pg, k) =>
                match copyinstr k pagetable uarg PGSIZE with
                | (false, bytes) => (false, pg :: argv, k.setPage pg ((k.cell pg).patch 0 bytes))
                | (true, bytes) =>
                    fetchArgs pagetable sz uargv n (k.setPage pg ((k.cell pg).patch 0 bytes))
                      (pg :: argv)

/-- The pages of the argument strings go back. -/
def freeArgs (M : Machine) : List Nat → Kmem → Except KPanic Kmem
  | [], k => .ok k
  | pg :: argv, k => do
      let k ← kfree M k pg
      freeArgs M argv k

/-- The name of a program: what follows the last slash, at most 15
bytes. -/
def programName (path : List Byte) : List Byte :=
  ((path.reverse.takeWhile (· ≠ 47)).reverse).take 15

/-- The commit of `exec`: the process gets the new image and gives the
old one back. -/
def execCommit (M : Machine) (S : KSys np) (p : Fin np) (tf old : Nat) (path : List Byte)
    (img : Image) : Except KPanic (KSys np) := do
  let x := S.proc p
  let k := S.kmem.setPage tf ((S.kmem.cell tf).setWord 8 a1Off img.sp)
  let k := k.setPage tf ((k.cell tf).setWord 8 epcOff img.entry)
  let k := k.setPage tf ((k.cell tf).setWord 8 spOff img.sp)
  let k ← procFreepagetable M k old x.sz
  .ok ((S.setMem k).setProc p
    { x with name := programName path, pagetable := some img.pagetable, sz := img.sz })

/-- `exec` with its arguments in the kernel. -/
def exec (M : Machine) (S : KSys np) (p : Fin np) (namei : List Byte → Option (List Byte))
    (path : List Byte) (argv : List Nat) : Except KPanic (Int × KSys np) :=
  match namei path with
  | none => .ok (-1, S)
  | some content =>
      match (S.proc p).trapframe, (S.proc p).pagetable with
      | some tf, some old => do
          let (img, k) ← execImage M S.kmem tf content argv
          match img with
          | none => .ok (-1, S.setMem k)
          | some img => do
              let S ← execCommit M (S.setMem k) p tf old path img
              .ok (argv.length, S)
      | _, _ => .error .nullPointer

/-- `sys_exec`; `namei` gives the contents of the file at a path. -/
def sysExec (M : Machine) (S : KSys np) (p : Fin np) (namei : List Byte → Option (List Byte))
    (upath uargv : Nat) : Except KPanic (Int × KSys np) :=
  match (S.proc p).pagetable with
  | none => .error .nullPointer
  | some pt =>
      match copyinstr S.kmem pt upath MAXPATH with
      | (false, _) => .ok (-1, S)
      | (true, bytes) =>
          match fetchArgs pt (S.proc p).sz uargv MAXARG S.kmem [] with
          | (false, argv, k) => do
              let k ← freeArgs M argv.reverse k
              .ok (-1, S.setMem k)
          | (true, argv, k) => do
              let (r, S) ← exec M (S.setMem k) p namei bytes.dropLast argv.reverse
              let k ← freeArgs M argv.reverse S.kmem
              .ok (r, S.setMem k)

/-! ## Steps -/

/-- A store by user code to a page it may write. -/
def userStore (S : KSys np) (p : Fin np) (va : Nat) (b : Byte) : Option (KSys np) :=
  match (S.proc p).pagetable with
  | none => none
  | some pt =>
      let pa := walkaddr S.kmem pt va
      if pa = 0 then none
      else some (S.setMem (S.kmem.setPage pa ((S.kmem.cell pa).patch (va % PGSIZE) [b])))

inductive KAct (np : Nat) where
  | kvminit
  | userinit (initcode : List Byte)
  | fork (p : Fin np)
  | exit (p : Fin np) (status : Nat)
  | wait (p : Fin np) (addr : Nat)
  | exec (p : Fin np) (namei : List Byte → Option (List Byte)) (upath uargv : Nat)
  | sbrk (p : Fin np) (n : Int)
  | pipe (p : Fin np) (fdarray : Nat)
  | close (p : Fin np) (fd : Fin NOFILE)
  | store (p : Fin np) (va : Nat) (b : Byte)

/-- The first instruction of the first process faults: `uvminit` does not
look whether its page was mapped. -/
def firstFaults (S : KSys np) : Prop :=
  ∀ p pt, S.initproc = some p → (S.proc p).pagetable = some pt → walkaddr S.kmem pt 0 = 0

instance (S : KSys np) : Decidable (firstFaults S) :=
  match hi : S.initproc with
  | none => isTrue fun p pt h => by rw [hi] at h; cases h
  | some p =>
      match hp : (S.proc p).pagetable with
      | none => isTrue fun q pt h h' => by grind
      | some pt => decidable_of_iff (walkaddr S.kmem pt 0 = 0) ⟨fun h q pt' hq hpt => by
          rw [hi] at hq
          cases hq
          rw [hp] at hpt
          cases hpt
          exact h, fun h => h p pt hi hp⟩

/-- The process making a call. -/
def KAct.caller : KAct np → Option (Fin np)
  | .kvminit | .userinit _ => none
  | .fork p | .exit p _ | .wait p _ | .exec p _ _ _ | .sbrk p _ | .pipe p _ | .close p _
  | .store p _ _ => some p

/-- What a call does; no result when the caller sleeps, or when the call
is not one that can be made. -/
def kcall (M : Machine) (S : KSys np) : KAct np → Except KPanic (Option (KSys np))
  | .kvminit =>
      match S.kpgtbl with
      | some _ => .ok none
      | none => do
          let (kpgtbl, k) ← kvmmake M np S.kmem
          .ok (some { S.setMem k with kpgtbl := some kpgtbl })
  | .userinit initcode =>
      match S.initproc with
      | some _ => .ok none
      | none => do
          let S ← userinit M S initcode
          -- a fault kills the process, which may not exit
          if firstFaults S then .error .initExiting else .ok (some S)
  | .fork p => (fun r => some r.2) <$> fork M S p
  | .exit p status => some <$> exit M S p status
  | .wait p addr => Option.map Prod.snd <$> wait M S p addr
  | .exec p namei upath uargv => (fun r => some r.2) <$> sysExec M S p namei upath uargv
  | .sbrk p n => (fun r => some r.2) <$> sysSbrk M S p n
  | .pipe p fdarray => (fun r => some r.2) <$> sysPipe M S p fdarray
  | .close p fd => (fun r => some r.2) <$> sysClose M S p fd
  | .store p va b => .ok (userStore S p va b)

/-- The process that exits. -/
def KAct.exiting : KAct np → Option (Fin np)
  | .exit p _ => some p
  | _ => none

/-- The caller is a process, and not the first one when it exits. -/
def KAct.Enabled (S : KSys np) (a : KAct np) : Prop :=
  (∀ p ∈ a.caller, (S.proc p).state = .runnable) ∧ ∀ p ∈ a.exiting, S.initproc ≠ some p

instance (S : KSys np) (a : KAct np) : Decidable (a.Enabled S) :=
  inferInstanceAs (Decidable (_ ∧ _))

/-- A step: an action with the outcomes of the next calls of `kalloc`. -/
def kStep (M : Machine) (S : KSys np) (a : KAct np × List Bool) : Option (KSys np) :=
  if a.1.Enabled S then
    match kcall M (S.setMem { S.kmem with fails := a.2 }) a.1 with
    | .ok r => r
    | .error _ => none
  else none

/-- Nothing but memory. -/
def KSys.bare (np : Nat) (k : Kmem) : KSys np where
  kmem := k
  proc _ := Proc.empty np
  file _ := ⟨0, .none, false, false, 0, 0⟩
  iref _ := 0
  initproc := none
  nextpid := 1
  kpgtbl := none

/-- The system after `kinit`: nothing but free pages. -/
def kboot (M : Machine) (np : Nat) (mem : Nat → Page) : Except KPanic (KSys np) := do
  let k ← freerange M ⟨⟨mem, []⟩, []⟩
  .ok (KSys.bare np k)

end Xv6.Vm
