import Xv6.FsAlloc

/-!
# Inode content

`bmap`, `itrunc`, `readi` and `writei`. The caller holds the inode's
lock, so the in-memory inode `ip` is passed along; it goes to the disk
with `iupdate`.

User memory appears as what `either_copyin` and `either_copyout` see of
it: the source of a write is a stream of bytes, `none` where the page is
not mapped, and the destination of a read is the set of bytes that can
be stored. A copy that fails has moved the bytes before the first
unmapped one. Lengths and offsets are 32-bit, and `off + n` wraps.
-/

namespace Xv6

open ByteVec (Byte)

/-! ## `bmap` -/

/-- The slot of `ip->addrs` that holds the indirect block. -/
abbrev indSlot : Fin (NDIRECT + 1) := ⟨NDIRECT, by decide⟩

/-- `ip->addrs[i] = addr`. -/
def Inode.setAddr (ip : Inode) (i : Fin (NDIRECT + 1)) (addr : Nat) : Inode :=
  { ip with addrs := Function.update ip.addrs i addr }

@[simp] theorem Inode.setAddr_self (ip : Inode) (i : Fin (NDIRECT + 1)) (addr : Nat) :
    (ip.setAddr i addr).addrs i = addr := Function.update_self ..

@[simp] theorem Inode.setAddr_of_ne {ip : Inode} {i j : Fin (NDIRECT + 1)} {addr : Nat}
    (h : j ≠ i) : (ip.setAddr i addr).addrs j = ip.addrs j := Function.update_of_ne h ..

@[simp] theorem Inode.setAddr_type (ip : Inode) (i : Fin (NDIRECT + 1)) (addr : Nat) :
    (ip.setAddr i addr).type = ip.type := rfl

/-- `if((addr = ip->addrs[i]) == 0) ip->addrs[i] = addr = balloc(dev)`. -/
def ballocAddr (sb : Superblock) (st : FsState) (ip : Inode) (i : Fin (NDIRECT + 1)) :
    Except FsPanic (Nat × Inode × FsState) :=
  if ip.addrs i = 0 then do
    let (addr, st) ← balloc sb st
    .ok (addr, ip.setAddr i addr, st)
  else .ok (ip.addrs i, ip, st)

/-- Entry `j` of the indirect block `a`. -/
def indEntry (d : Disk) (a j : Nat) : Nat := (d a).word 4 (4 * j)

/-- The same for entry `j` of the indirect block `a`. -/
def ballocEntry (sb : Superblock) (st : FsState) (a j : Nat) : Except FsPanic (Nat × FsState) :=
  if indEntry st.data a j = 0 then do
    let (addr, st) ← balloc sb st
    .ok (addr, st.logWrite a ((st.data a).setWord 4 (4 * j) addr))
  else .ok (indEntry st.data a j, st)

def bmap (sb : Superblock) (st : FsState) (ip : Inode) (bn : Nat) :
    Except FsPanic (Nat × Inode × FsState) :=
  if h : bn < NDIRECT then ballocAddr sb st ip ⟨bn, Nat.lt_succ_of_lt h⟩
  else if bn - NDIRECT < NINDIRECT then do
    let (a, ip, st) ← ballocAddr sb st ip indSlot
    let (addr, st) ← ballocEntry sb st a (bn - NDIRECT)
    .ok (addr, ip, st)
  else .error .outOfRange

/-! ## `itrunc` -/

/-- The loop over the direct slots. -/
def itruncDirect (sb : Superblock) :
    List (Fin (NDIRECT + 1)) → Inode → FsState → Except FsPanic (Inode × FsState)
  | [], ip, st => .ok (ip, st)
  | i :: is, ip, st =>
      if ip.addrs i = 0 then itruncDirect sb is ip st
      else do
        let st ← bfree sb st (ip.addrs i)
        itruncDirect sb is (ip.setAddr i 0) st

/-- The loop over the entries of the indirect block `a`. -/
def itruncEntries (sb : Superblock) (a : Nat) :
    List Nat → FsState → Except FsPanic FsState
  | [], st => .ok st
  | j :: js, st =>
      if indEntry st.data a j = 0 then itruncEntries sb a js st
      else do
        let st ← bfree sb st (indEntry st.data a j)
        itruncEntries sb a js st

/-- The direct slots, in order. -/
def directSlots : List (Fin (NDIRECT + 1)) := (List.finRange NDIRECT).map Fin.castSucc

def itruncIndirect (sb : Superblock) (ip : Inode) (st : FsState) :
    Except FsPanic (Inode × FsState) :=
  if ip.addrs indSlot = 0 then .ok (ip, st)
  else do
    let st ← itruncEntries sb (ip.addrs indSlot) (List.range NINDIRECT) st
    let st ← bfree sb st (ip.addrs indSlot)
    .ok (ip.setAddr indSlot 0, st)

def itrunc (sb : Superblock) (st : FsState) (inum : Nat) (ip : Inode) :
    Except FsPanic (Inode × FsState) := do
  let (ip, st) ← itruncDirect sb directSlots ip st
  let (ip, st) ← itruncIndirect sb ip st
  let ip := { ip with size := 0 }
  .ok (ip, iupdate sb st inum ip)

/-! ## `readi` and `writei` -/

/-- The source of a write, by offset from `src`. -/
abbrev Source := Nat → Option Byte

/-- What a copy of `n` bytes from offset `i` moves: the bytes before the
first unmapped one. -/
def copyBytes (src : Source) : Nat → Nat → List Byte
  | _, 0 => []
  | i, n + 1 =>
      match src i with
      | none => []
      | some b => b :: copyBytes src (i + 1) n

/-- The bytes moved in the loops of `readi` and `writei`: up to the end
of the request or of the block. -/
def chunk (n tot off : Nat) : Nat := min (n - tot) (BSIZE - off % BSIZE)

theorem chunk_pos {n tot : Nat} (h : tot < n) (off : Nat) : 0 < chunk n tot off := by
  have : off % BSIZE < BSIZE := Nat.mod_lt _ (by decide)
  unfold chunk
  omega

/-- The loop of `writei`; returns `tot`, `off` and the state it is left
in. A failing copy has stored into the buffer without logging it. -/
def writeLoop (sb : Superblock) (src : Source) (n tot off : Nat) (ip : Inode) (st : FsState) :
    Except FsPanic (Nat × Nat × Inode × FsState) :=
  if _h : tot < n then do
    let (addr, ip, st) ← bmap sb st ip (off / BSIZE)
    let bytes := copyBytes src tot (chunk n tot off)
    let blk := (st.data addr).patch (off % BSIZE) bytes
    if bytes.length < chunk n tot off then
      .ok (tot, off, ip, { st with data := Function.update st.data addr blk })
    else
      writeLoop sb src n (tot + chunk n tot off) (off + chunk n tot off) ip
        (st.logWrite addr blk)
  else .ok (tot, off, ip, st)
termination_by n - tot
decreasing_by
  have := chunk_pos _h off
  omega

def writei (sb : Superblock) (st : FsState) (inum : Nat) (ip : Inode) (src : Source)
    (off n : Nat) : Except FsPanic (Int × Inode × FsState) :=
  if off > ip.size ∨ (off + n) % 2 ^ 32 < off then .ok (-1, ip, st)
  else if (off + n) % 2 ^ 32 > MAXFILE * BSIZE then .ok (-1, ip, st)
  else do
    let (tot, off, ip, st) ← writeLoop sb src n 0 off ip st
    let ip := if off > ip.size then { ip with size := off } else ip
    .ok ((tot : Int), ip, iupdate sb st inum ip)

/-- Which bytes of the destination of a read can be stored. -/
abbrev Target := Nat → Bool

/-- The loop of `readi`; returns the bytes stored so far, and `tot`,
which is `-1` after a failing copy. -/
def readLoop (sb : Superblock) (dst : Target) (n tot off : Nat) (ip : Inode) (st : FsState)
    (out : List Byte) : Except FsPanic (Int × List Byte × Inode × FsState) :=
  if _h : tot < n then do
    let (addr, ip, st) ← bmap sb st ip (off / BSIZE)
    let m := chunk n tot off
    let bytes := (st.data addr).slice (off % BSIZE) m
    let bytes := bytes.take ((List.range m).takeWhile fun j => dst (tot + j)).length
    if bytes.length < m then .ok (-1, out ++ bytes, ip, st)
    else readLoop sb dst n (tot + chunk n tot off) (off + chunk n tot off) ip st (out ++ bytes)
  else .ok (tot, out, ip, st)
termination_by n - tot
decreasing_by
  have := chunk_pos _h off
  omega

def readi (sb : Superblock) (st : FsState) (ip : Inode) (dst : Target) (off n : Nat) :
    Except FsPanic (Int × List Byte × Inode × FsState) :=
  if off > ip.size ∨ (off + n) % 2 ^ 32 < off then .ok (0, [], ip, st)
  else
    readLoop sb dst (if (off + n) % 2 ^ 32 > ip.size then ip.size - off else n) 0 off ip st []

end Xv6
