import Xv6.Layout

/-!
# The buffer cache

`bio.c`: `NBUF` buffers in least-recently-used order over the disk. The
`prev`/`next` ring is its list of buffers from `head.next` on. A buffer's
sleep-lock is its holder. `bget` and `brelse` are cut at their lock
boundaries: `bget` takes a reference under `bcache.lock` and then waits
for the sleep-lock, `brelse` releases the sleep-lock and then drops the
reference under `bcache.lock`.
-/

namespace Xv6

open Function

/-! ## `struct buf` and `bcache` -/

structure Buf where
  valid : Bool
  dev : Nat
  blockno : Nat
  refcnt : Int
  /-- The process holding the sleep-lock. -/
  holder : Option Nat
  data : Block

abbrev BufId := Fin NBUF

/-- The buffer is assigned to block `b` of the file-system disk. -/
def Buf.IsOf (x : Buf) (b : Nat) : Prop := x.dev = ROOTDEV ∧ x.blockno = b

/-- The buffer recycled for another block. -/
def Buf.recycled (x : Buf) (dev blockno : Nat) : Buf :=
  { x with dev := dev, blockno := blockno, valid := false, refcnt := 1 }

structure Bcache where
  buf : BufId → Buf
  /-- From `head.next` (most recent) to `head.prev` (least recent). -/
  lru : List BufId
  disk : Disk

/-- `binit`: every buffer is inserted at the head of the ring. -/
def binit (d : Disk) : Bcache :=
  { buf := fun _ =>
      { valid := false, dev := 0, blockno := 0, refcnt := 0, holder := none
        data := ByteVec.fill BSIZE 0 }
    lru := (List.finRange NBUF).reverse
    disk := d }

namespace Bcache

/-- Change one buffer. -/
def set (c : Bcache) (i : BufId) (x : Buf) : Bcache :=
  { c with buf := update c.buf i x }

/-- The section of `bget` under `bcache.lock`; `none` is
`panic("bget: no buffers")`. -/
def bget (c : Bcache) (dev blockno : Nat) : Option (BufId × Bcache) :=
  match c.lru.find? fun i => (c.buf i).dev = dev ∧ (c.buf i).blockno = blockno with
  | some i => some (i, c.set i { c.buf i with refcnt := (c.buf i).refcnt + 1 })
  | none =>
      match c.lru.reverse.find? fun i => (c.buf i).refcnt = 0 with
      | some i => some (i, c.set i ((c.buf i).recycled dev blockno))
      | none => none

/-- `acquiresleep` getting through. -/
def acquiresleep (c : Bcache) (p : Nat) (i : BufId) : Bcache :=
  c.set i { c.buf i with holder := some p }

/-- The tail of `bread`: read the block unless it is there. -/
def fill (c : Bcache) (i : BufId) : Bcache :=
  if (c.buf i).valid then c
  else c.set i { c.buf i with data := c.disk (c.buf i).blockno, valid := true }

/-- The holder stores into `b->data`. -/
def store (c : Bcache) (i : BufId) (d : Block) : Bcache :=
  c.set i { c.buf i with data := d }

def bwrite (c : Bcache) (i : BufId) : Bcache :=
  { c with disk := update c.disk (c.buf i).blockno (c.buf i).data }

def releasesleep (c : Bcache) (i : BufId) : Bcache :=
  c.set i { c.buf i with holder := none }

/-- The section of `brelse` under `bcache.lock`. -/
def drop (c : Bcache) (i : BufId) : Bcache :=
  let c := c.set i { c.buf i with refcnt := (c.buf i).refcnt - 1 }
  if (c.buf i).refcnt = 0 then { c with lru := i :: c.lru.erase i } else c

def bpin (c : Bcache) (i : BufId) : Bcache :=
  c.set i { c.buf i with refcnt := (c.buf i).refcnt + 1 }

def bunpin (c : Bcache) (i : BufId) : Bcache :=
  c.set i { c.buf i with refcnt := (c.buf i).refcnt - 1 }

/-- Buffer `i` is the buffer of block `b`. -/
def Assigned (c : Bcache) (i : BufId) (b : Nat) : Prop := (c.buf i).IsOf b

@[simp] theorem set_self (c : Bcache) (i : BufId) (x : Buf) : (c.set i x).buf i = x := by
  simp [set]

theorem set_of_ne (c : Bcache) {i j : BufId} (h : j ≠ i) (x : Buf) :
    (c.set i x).buf j = c.buf j := by
  simp [set, update_of_ne h]

end Bcache

/-! ## Calls in progress and history -/

/-- Where a process is inside `bread` or `brelse`. -/
inductive Call where
  | idle
  /-- In `bget`, waiting for the sleep-lock of `i`, buffer of block `b`. -/
  | locking (i : BufId) (b : Nat)
  /-- In `bread`, holding the sleep-lock, about to test `valid`. -/
  | filling (i : BufId) (b : Nat)
  /-- In `brelse`, sleep-lock released, reference still to be dropped. -/
  | dropping (i : BufId)
deriving DecidableEq

/-- The call owns a reference of `i` without holding its lock. -/
def Call.Uses (i : BufId) : Call → Prop
  | .locking j _ => j = i
  | .dropping j => j = i
  | _ => False

/-- The call is about `i`. -/
def Call.On (i : BufId) : Call → Prop
  | .idle => False
  | .locking j _ => j = i
  | .filling j _ => j = i
  | .dropping j => j = i

/-- History variables: nothing below reads them but the client protocol
(`unsaved`) and the statements. -/
structure BioHist where
  /-- The contents the last holder of a block left. -/
  last : Nat → Block
  /-- The same, counting holders other than the committing process. -/
  client : Nat → Block
  /-- The holder has stored into the buffer since it got it. -/
  touched : BufId → Bool
  /-- The same, and neither `bwrite` nor `log_write` has followed. -/
  unsaved : BufId → Bool
  /-- Pins `log_write` has taken on a block's buffer since boot. -/
  taken : Nat → Nat
  /-- Pins `install_trans` has dropped. -/
  dropped : Nat → Nat

def BioHist.init (d : Disk) : BioHist :=
  { last := d, client := d, touched := fun _ => false, unsaved := fun _ => false
    taken := fun _ => 0, dropped := fun _ => 0 }

/-- The history after the holder of `i` stores into it. -/
def BioHist.touch (h : BioHist) (i : BufId) : BioHist :=
  { h with touched := update h.touched i true
           unsaved := update h.unsaved i true }

/-- The history after `bwrite` or `log_write` of `i`. -/
def BioHist.save (h : BioHist) (i : BufId) : BioHist :=
  { h with unsaved := update h.unsaved i false }

/-- The history after the holder of `i`, whose record is `x`, gives it
up. -/
def BioHist.settle (h : BioHist) (i : BufId) (x : Buf) (committer : Bool) : BioHist :=
  { h with
    last := update h.last x.blockno x.data
    client := if committer then h.client else update h.client x.blockno x.data
    touched := update h.touched i false }

namespace BioHist

variable (h : BioHist) {i j : BufId}

theorem touch_unsaved_of_ne (hj : j ≠ i) : (h.touch i).unsaved j = h.unsaved j :=
  update_of_ne hj ..

theorem touch_touched_of_ne (hj : j ≠ i) : (h.touch i).touched j = h.touched j :=
  update_of_ne hj ..

theorem save_unsaved_of_ne (hj : j ≠ i) : (h.save i).unsaved j = h.unsaved j :=
  update_of_ne hj ..

theorem save_unsaved_self : (h.save i).unsaved i = false :=
  update_self ..

theorem settle_touched {x : Buf} {m : Bool} (hj : (h.settle i x m).touched j = true) :
    j ≠ i ∧ h.touched j = true := by
  have hj' : update h.touched i false j = true := hj
  have hji : j ≠ i := by grind
  rw [update_of_ne hji] at hj'
  exact ⟨hji, hj'⟩

end BioHist

end Xv6
