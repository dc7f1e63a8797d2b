import Xv6.Layout
import Xv6.RingQueue
import Xv6.StepSystem

/-!
# The virtio disk driver and its device

`virtio_disk_rw`, `virtio_disk_intr` and the device share the descriptor
table, the avail ring and the used ring. The driver's code runs under
`vdisk_lock`, which a caller gives up only in `sleep`; the device runs at
any time, so each group of stores the device could see between is a step
of its own: the request header, the three descriptors, the avail slot,
the avail index.

A caller of `virtio_disk_rw` holds the sleep-lock of its buffer, as
`bread` and `bwrite` do. A sleeper may be woken at any time: each of the
two `sleep`s is in a loop that tests its condition again.

Of the device it is assumed that it takes each posted head once, writes
status 0 and puts that head in the used ring once, in any order.
-/

namespace Xv6.Virtio

open Function

abbrev NUM : Nat := 8

scoped instance : NeZero NUM := ⟨by decide⟩

def VRING_DESC_F_NEXT : Nat := 1
def VRING_DESC_F_WRITE : Nat := 2
def VIRTIO_BLK_T_IN : Nat := 0
def VIRTIO_BLK_T_OUT : Nat := 1

/-- What the address of a descriptor points to. -/
inductive Addr where
  | null
  /-- `&disk.ops[i]` -/
  | ops (i : Nat)
  /-- `b->data` -/
  | data (b : Nat)
  /-- `&disk.info[i].status` -/
  | status (i : Nat)
deriving DecidableEq

/-- `struct virtq_desc`. -/
structure Desc where
  addr : Addr
  len : Nat
  flags : Nat
  next : Nat
deriving DecidableEq

/-- `struct virtio_blk_req`. -/
structure BlkReq where
  type : Nat
  reserved : Nat
  sector : Nat
deriving DecidableEq

inductive Panic where
  | freeDesc1
  | freeDesc2
  /-- the loop of `free_chain` has gone over more than `NUM` descriptors -/
  | freeChainLoops
  | intrStatus
  /-- `b->disk = 0` with a null `b` -/
  | nullBuf
deriving DecidableEq

/-! ## Descriptors -/

/-- `disk.desc` and `disk.free`. -/
structure Pool where
  desc : Nat → Desc
  free : Nat → Bool

def Pool.setDesc (P : Pool) (i : Nat) (d : Desc) : Pool :=
  { P with desc := update P.desc i d }

/-- `alloc_desc`; `none` is -1. -/
def allocDesc (P : Pool) : Option (Nat × Pool) :=
  match (List.range NUM).find? P.free with
  | some i => some (i, { P with free := update P.free i false })
  | none => none

/-- `free_desc`. -/
def freeDesc (P : Pool) (i : Nat) : Except Panic Pool :=
  if NUM ≤ i then .error .freeDesc1
  else if P.free i then .error .freeDesc2
  else .ok
    { desc := update P.desc i ⟨.null, 0, 0, 0⟩
      free := update P.free i true }

/-- The loop of `free_chain`, at most `fuel` rounds of it. -/
def freeChain : Nat → Pool → Nat → Except Panic Pool
  | 0, _, _ => .error .freeChainLoops
  | fuel + 1, P, i => do
      let d := P.desc i
      let P ← freeDesc P i
      if d.flags &&& VRING_DESC_F_NEXT ≠ 0 then freeChain fuel P d.next else .ok P

/-- `idx[3]`. -/
structure Chain where
  i0 : Nat
  i1 : Nat
  i2 : Nat
deriving DecidableEq

/-- `alloc3_desc`. When a descriptor is missing, those allocated are freed
again. -/
def alloc3Desc (P : Pool) : Except Panic (Option Chain × Pool) :=
  match allocDesc P with
  | none => .ok (none, P)
  | some (i0, P) =>
    match allocDesc P with
    | none => do
        let P ← freeDesc P i0
        .ok (none, P)
    | some (i1, P) =>
      match allocDesc P with
      | none => do
          let P ← freeDesc P i0
          let P ← freeDesc P i1
          .ok (none, P)
      | some (i2, P) => .ok (some ⟨i0, i1, i2⟩, P)

/-! ## The system -/

/-- The arguments of `virtio_disk_rw`, and its `sector`. -/
structure Call where
  b : Nat
  write : Bool
  sector : Nat
deriving DecidableEq

/-- Where a caller is in `virtio_disk_rw`. -/
inductive Pc where
  | out
  /-- at `alloc3_desc` -/
  | alloc (c : Call)
  /-- asleep on `&disk.free[0]` -/
  | sleepFree (c : Call)
  /-- with `k` of the groups of stores before `avail->idx += 1` done -/
  | format (c : Call) (ch : Chain) (k : Nat)
  /-- at the test of `b->disk` -/
  | test (c : Call) (ch : Chain)
  /-- asleep on `b` -/
  | sleepDone (c : Call) (ch : Chain)
  /-- past the loop -/
  | done (c : Call) (ch : Chain)
deriving DecidableEq

/-- Who holds `vdisk_lock`. -/
inductive Holder where
  | caller (p : Nat)
  | intr
deriving DecidableEq

structure Sys where
  pool : Pool
  ops : Nat → BlkReq
  /-- `disk.info[i].b` -/
  infoB : Nat → Option Nat
  /-- `disk.info[i].status` -/
  status : Nat → Nat
  /-- the read index is the device's, the write index is `avail->idx` -/
  avail : RingQueue Nat NUM (2 ^ 16)
  /-- the read index is `disk.used_idx`, the write index is `used->idx` -/
  used : RingQueue Nat NUM (2 ^ 16)
  vdiskLock : Option Holder
  /-- the heads the device has taken, those it has written the status
  for, and the one that is in a used slot the index has not passed -/
  taken : List Nat
  ready : List Nat
  writing : Option Nat
  /-- `b->disk`, `b->blockno` and the owner of `b->lock` -/
  disk : Nat → Bool
  blockno : Nat → Nat
  bufLock : Nat → Option Nat
  pc : Nat → Pc
  panic : Option Panic

def Sys.setPc (s : Sys) (p : Nat) (k : Pc) : Sys := { s with pc := update s.pc p k }

@[simp] theorem Sys.setPc_pc_self (s : Sys) (p : Nat) (k : Pc) : (s.setPc p k).pc p = k :=
  update_self ..

theorem Sys.setPc_pc_of_ne (s : Sys) {p q : Nat} (k : Pc) (h : q ≠ p) :
    (s.setPc p k).pc q = s.pc q := update_of_ne h ..

/-- After `virtio_disk_init`; the buffers may stand for any blocks. -/
def boot (blockno : Nat → Nat) : Sys where
  pool := ⟨fun _ => ⟨.null, 0, 0, 0⟩, fun i => decide (i < NUM)⟩
  ops := fun _ => ⟨0, 0, 0⟩
  infoB := fun _ => none
  status := fun _ => 0
  avail := ⟨fun _ => 0, 0, 0⟩
  used := ⟨fun _ => 0, 0, 0⟩
  vdiskLock := none
  taken := []
  ready := []
  writing := none
  disk := fun _ => false
  blockno := blockno
  bufLock := fun _ => none
  pc := fun _ => .out
  panic := none

/-- `b->blockno * (BSIZE / 512)`, a product of 32-bit numbers. -/
def sectorOf (blockno : Nat) : Nat := blockno * (BSIZE / 512) % 2 ^ 32

/-! ## The driver -/

def headerOf (c : Call) : BlkReq :=
  ⟨if c.write then VIRTIO_BLK_T_OUT else VIRTIO_BLK_T_IN, 0, c.sector⟩

def headDesc (ch : Chain) : Desc := ⟨.ops ch.i0, 16, VRING_DESC_F_NEXT, ch.i1⟩

def dataDesc (c : Call) (ch : Chain) : Desc :=
  ⟨.data c.b, BSIZE, (if c.write then 0 else VRING_DESC_F_WRITE) ||| VRING_DESC_F_NEXT, ch.i2⟩

def statusDesc (ch : Chain) : Desc := ⟨.status ch.i0, 1, VRING_DESC_F_WRITE, 0⟩

/-- The groups of stores of `virtio_disk_rw` up to the avail slot, by
number. -/
def Sys.fmt (s : Sys) (c : Call) (ch : Chain) : Nat → Sys
  | 0 => { s with ops := update s.ops ch.i0 (headerOf c) }
  | 1 => { s with pool := s.pool.setDesc ch.i0 (headDesc ch) }
  | 2 => { s with pool := s.pool.setDesc ch.i1 (dataDesc c ch) }
  | 3 => { s with status := update s.status ch.i0 0xff
                  pool := s.pool.setDesc ch.i2 (statusDesc ch) }
  | 4 => { s with disk := update s.disk c.b true
                  infoB := update s.infoB ch.i0 (some c.b) }
  | _ => { s with avail := s.avail.store ch.i0 }

/-- The next step of caller `p` in `virtio_disk_rw`. -/
def rwStep (s : Sys) (p : Nat) : Option Sys :=
  match s.pc p with
  | .out => none
  | .alloc c =>
      match alloc3Desc s.pool with
      | .error e => some { s with panic := some e }
      | .ok (some ch, P) => some ({ s with pool := P }.setPc p (.format c ch 0))
      | .ok (none, P) => some ({ s with pool := P, vdiskLock := none }.setPc p (.sleepFree c))
  | .sleepFree c =>
      if s.vdiskLock = none then
        some ({ s with vdiskLock := some (.caller p) }.setPc p (.alloc c))
      else none
  | .format c ch k =>
      if k < 6 then some ((s.fmt c ch k).setPc p (.format c ch (k + 1)))
      else some ({ s with avail := s.avail.publish }.setPc p (.test c ch))
  | .test c ch =>
      if s.disk c.b then some ({ s with vdiskLock := none }.setPc p (.sleepDone c ch))
      else some (s.setPc p (.done c ch))
  | .sleepDone c ch =>
      if s.vdiskLock = none then
        some ({ s with vdiskLock := some (.caller p) }.setPc p (.test c ch))
      else none
  | .done _ ch =>
      match freeChain (NUM + 1) s.pool ch.i0 with
      | .error e => some { s with panic := some e }
      | .ok P => some ({ s with infoB := update s.infoB ch.i0 none
                                pool := P, vdiskLock := none }.setPc p .out)

/-- One test of the loop of `virtio_disk_intr`, with the round after it
or the release. -/
def intrStep (s : Sys) : Sys :=
  if s.used.rd = s.used.wr then { s with vdiskLock := none }
  else
    let id := s.used.cell s.used.rd
    if s.status id ≠ 0 then { s with panic := some .intrStatus }
    else
      match s.infoB id with
      | none => { s with panic := some .nullBuf }
      | some b => { s with disk := update s.disk b false, used := s.used.take }

/-! ## The device -/

/-- The descriptors of the chain that starts at `h`, as the device reads
them. -/
def Sys.chainAt (s : Sys) (h : Nat) : Desc × Desc × Desc :=
  let d0 := s.pool.desc h
  let d1 := s.pool.desc d0.next
  (d0, d1, s.pool.desc d1.next)

/-- The device stores status 0 where the last descriptor of a chain
points. -/
def Sys.storeStatus (s : Sys) : Desc × Desc × Desc → Sys
  | (_, _, ⟨.status i, _, _, _⟩) => { s with status := update s.status i 0 }
  | _ => s

/-! ## Steps -/

inductive Act where
  /-- `acquiresleep(&b->lock)` by `p`, its release, and `bget` giving an
  unlocked buffer to another block -/
  | lockBuf (p b : Nat)
  | unlockBuf (p b : Nat)
  | rebind (b n : Nat)
  /-- `virtio_disk_rw(b, write)` called by `p`, up to the `acquire` -/
  | call (p b : Nat) (write : Bool)
  | rw (p : Nat)
  /-- `virtio_disk_intr`, up to the `acquire`, and a step of it -/
  | intrEnter
  | intr
  /-- the device takes the next posted head, writes a status, stores a
  used slot, moves the used index -/
  | take
  | status (h : Nat)
  | usedSlot (h : Nat)
  | usedIdx
deriving DecidableEq

def step (s : Sys) (a : Act) : Option Sys :=
  if s.panic ≠ none then none
  else
    match a with
    | .lockBuf p b =>
        if s.bufLock b = none then some { s with bufLock := update s.bufLock b (some p) }
        else none
    | .unlockBuf p b =>
        if s.bufLock b = some p ∧ s.pc p = .out then
          some { s with bufLock := update s.bufLock b none }
        else none
    | .rebind b n =>
        if s.bufLock b = none then some { s with blockno := update s.blockno b n } else none
    | .call p b write =>
        if s.bufLock b = some p ∧ s.pc p = .out ∧ s.vdiskLock = none then
          some ({ s with vdiskLock := some (.caller p) }.setPc p
            (.alloc ⟨b, write, sectorOf (s.blockno b)⟩))
        else none
    | .rw p => rwStep s p
    | .intrEnter => if s.vdiskLock = none then some { s with vdiskLock := some .intr } else none
    | .intr => if s.vdiskLock = some .intr then some (intrStep s) else none
    | .take =>
        if s.avail.rd = s.avail.wr then none
        else some { s with taken := s.avail.cell s.avail.rd :: s.taken, avail := s.avail.take }
    | .status h =>
        if h ∈ s.taken then
          some { s.storeStatus (s.chainAt h) with
                  taken := s.taken.erase h, ready := h :: s.ready }
        else none
    | .usedSlot h =>
        if h ∈ s.ready ∧ s.writing = none then
          some { s with used := s.used.store h, ready := s.ready.erase h, writing := some h }
        else none
    | .usedIdx =>
        if s.writing = none then none
        else some { s with used := s.used.publish, writing := none }
end Xv6.Virtio
