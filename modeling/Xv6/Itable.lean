import Xv6.FsAlloc

/-!
# The inode table

`iget`, `idup`, `ilock`, `iunlock`, `iput` and `ialloc`, cut where they
release a lock. A section under `itable.lock` is one step, and so is the
access to the on-disk inode under the lock of its buffer. `iput` of a
last reference without links gives up `itable.lock` while it truncates
and frees the inode; its stages are separate steps.

A process may be inside one of these functions (`IPc`) and holds any
number of references and locks besides. What the callers promise is in
the guards: a process uses references it holds, unlocks an inode only
when its changes are written back, and looks up an inode number only
when it is counted by a directory entry.
-/

namespace Xv6

open Function

abbrev InodeId := Fin NINODE

/-- Device and inode number. -/
abbrev InodeKey := Nat × Nat

/-- `struct inode`; `ip` is the copy of the on-disk inode. -/
structure IEntry (np : Nat) where
  dev : Nat
  inum : Nat
  ref : Nat
  valid : Bool
  /-- the process holding the sleep-lock -/
  lock : Option (Fin np)
  ip : Inode

def IEntry.key {np : Nat} (x : IEntry np) : InodeKey := (x.dev, x.inum)

/-- The statements of `iput` after it released `itable.lock`. -/
inductive PutStage where
  /-- `itrunc` clears the size and the addresses -/
  | trunc
  /-- and ends with `iupdate` -/
  | update
  /-- `ip->type = 0` -/
  | clear
  /-- `iupdate(ip)` -/
  | free
  /-- `ip->valid = 0` -/
  | invalidate
  /-- `releasesleep(&ip->lock)` -/
  | unlock
  /-- `ip->ref--` -/
  | drop
  deriving DecidableEq

/-- Where a process is. -/
inductive IPc where
  | idle
  /-- the loop of `ialloc`, about to read inode `inum` -/
  | scan (dev inum : Nat) (type : FileType)
  /-- `ialloc` has claimed the inode and calls `iget` -/
  | claimed (k : InodeKey)
  /-- `ilock`, in `acquiresleep` -/
  | locking (e : InodeId)
  /-- `ilock`, holding the lock -/
  | loading (e : InodeId)
  | putting (e : InodeId) (st : PutStage)
  deriving DecidableEq

structure ISys (np : Nat) where
  ninodes : Nat
  ent : InodeId → IEntry np
  disk : InodeKey → Inode
  pc : Fin np → IPc
  /-- the references each process holds -/
  held : Fin np → InodeId → Nat
  /-- the lock holder changed the entry and has not called `iupdate` -/
  dirty : InodeId → Bool

namespace ISys

variable {np : Nat}

def setEnt (S : ISys np) (e : InodeId) (x : IEntry np) : ISys np :=
  { S with ent := update S.ent e x }

def setPc (S : ISys np) (p : Fin np) (c : IPc) : ISys np :=
  { S with pc := update S.pc p c }

def setHeld (S : ISys np) (p : Fin np) (e : InodeId) (n : Nat) : ISys np :=
  { S with held := update S.held p (update (S.held p) e n) }

def setDisk (S : ISys np) (k : InodeKey) (x : Inode) : ISys np :=
  { S with disk := update S.disk k x }

def setDirty (S : ISys np) (e : InodeId) (b : Bool) : ISys np :=
  { S with dirty := update S.dirty e b }

/-! ## The functions -/

/-- `ip->ref++`, by process `p`. -/
def take (S : ISys np) (p : Fin np) (e : InodeId) : ISys np :=
  (S.setEnt e { S.ent e with ref := (S.ent e).ref + 1 }).setHeld p e (S.held p e + 1)

/-- The entry recycled for another inode. -/
def recycle (S : ISys np) (p : Fin np) (e : InodeId) (k : InodeKey) : ISys np :=
  (S.setEnt e { S.ent e with dev := k.1, inum := k.2, ref := 1, valid := false }).setHeld p e
    (S.held p e + 1)

/-- `none` is `panic("iget: no inodes")`. -/
def iget (S : ISys np) (p : Fin np) (k : InodeKey) : Option (ISys np) :=
  match (List.finRange NINODE).find? fun e =>
      decide (0 < (S.ent e).ref ∧ (S.ent e).dev = k.1 ∧ (S.ent e).inum = k.2) with
  | some e => some (S.take p e)
  | none =>
      match (List.finRange NINODE).find? fun e => decide ((S.ent e).ref = 0) with
      | some e => some (S.recycle p e k)
      | none => none

def iupdate (S : ISys np) (e : InodeId) : ISys np :=
  (S.setDisk (S.ent e).key (S.ent e).ip).setDirty e false

/-- `ip->ref--`, by process `p`. -/
def drop (S : ISys np) (p : Fin np) (e : InodeId) : ISys np :=
  (S.setEnt e { S.ent e with ref := (S.ent e).ref - 1 }).setHeld p e (S.held p e - 1)

/-- A reference of `p` becomes one of `q`. -/
def give (S : ISys np) (p q : Fin np) (e : InodeId) : ISys np :=
  let S := S.setHeld p e (S.held p e - 1)
  S.setHeld q e (S.held q e + 1)

/-- `acquiresleep(&ip->lock)` getting through. -/
def acquire (S : ISys np) (p : Fin np) (e : InodeId) : ISys np :=
  S.setEnt e { S.ent e with lock := some p }

def releasesleep (S : ISys np) (e : InodeId) : ISys np :=
  S.setEnt e { S.ent e with lock := none }

/-- The part of `ilock` that reads the inode. -/
def load (S : ISys np) (e : InodeId) : ISys np :=
  S.setEnt e { S.ent e with ip := S.disk (S.ent e).key, valid := true }

/-- The section of `iput` that starts under `itable.lock`. A lock that
is held would block it. -/
def iput (S : ISys np) (p : Fin np) (e : InodeId) : Option (ISys np) :=
  if (S.ent e).ref = 1 ∧ (S.ent e).valid = true ∧ (S.ent e).ip.nlink = 0 then
    if (S.ent e).lock = none then some ((S.acquire p e).setPc p (.putting e .trunc)) else none
  else some (S.drop p e)

/-- The next statement of `iput`. -/
def putStep (S : ISys np) (p : Fin np) (e : InodeId) : PutStage → ISys np
  | .trunc => (S.setEnt e { S.ent e with
      ip := { (S.ent e).ip with size := 0, addrs := fun _ => 0 } }).setPc p (.putting e .update)
  | .update => (S.iupdate e).setPc p (.putting e .clear)
  | .clear => (S.setEnt e { S.ent e with
      ip := { (S.ent e).ip with type := 0 } }).setPc p (.putting e .free)
  | .free => (S.iupdate e).setPc p (.putting e .invalidate)
  | .invalidate => (S.setEnt e { S.ent e with valid := false }).setPc p (.putting e .unlock)
  | .unlock => (S.releasesleep e).setPc p (.putting e .drop)
  | .drop => (S.drop p e).setPc p .idle

/-- The next step of the function process `p` is in; `none` when it
waits or panics. -/
def advance (S : ISys np) (p : Fin np) : Option (ISys np) :=
  match S.pc p with
  | .idle => none
  | .scan dev inum type =>
      if inum < S.ninodes then
        if (S.disk (dev, inum)).type = 0 then
          some ((S.setDisk (dev, inum) (Inode.fresh type.code)).setPc p (.claimed (dev, inum)))
        else some (S.setPc p (.scan dev (inum + 1) type))
      else none
  | .claimed k => (S.setPc p .idle).iget p k
  | .locking e =>
      if (S.ent e).lock = none then some ((S.acquire p e).setPc p (.loading e)) else none
  | .loading e =>
      if (S.ent e).valid then some (S.setPc p .idle)
      else if (S.disk (S.ent e).key).type = 0 then none
      else some ((S.load e).setPc p .idle)
  | .putting e st => some (S.putStep p e st)

end ISys

/-! ## Steps -/

/-- Inode `k` is counted by a directory entry: it is allocated and its
link count is not 0, on the disk and in a valid copy. -/
def ISys.Counted {np : Nat} (S : ISys np) (k : InodeKey) : Prop :=
  (S.disk k).type ≠ 0 ∧ 0 < (S.disk k).nlink ∧ ∀ e, (S.ent e).key = k → 0 < (S.ent e).ref → (S.ent e).valid = true →
    0 < (S.ent e).ip.nlink

instance {np : Nat} (S : ISys np) (k : InodeKey) : Decidable (S.Counted k) :=
  inferInstanceAs (Decidable (_ ∧ _ ∧ ∀ _, _))

end Xv6
