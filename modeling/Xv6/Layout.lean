import Xv6.ByteVec

/-!
# Constants and the on-disk layout

The limits of `param.h` and the disk format of `fs.h`, under their
source names. A disk is a function from block numbers to blocks of
exactly `BSIZE` bytes.
-/

namespace Xv6

/-! ## `param.h` -/

abbrev NPROC : Nat := 64
abbrev NOFILE : Nat := 16
abbrev NFILE : Nat := 100
abbrev NINODE : Nat := 50
abbrev NDEV : Nat := 10
abbrev ROOTDEV : Nat := 1
abbrev MAXOPBLOCKS : Nat := 10
abbrev LOGSIZE : Nat := MAXOPBLOCKS * 3
abbrev NBUF : Nat := MAXOPBLOCKS * 3
abbrev MAXPATH : Nat := 128

/-! ## `proc.h` -/

/-- `enum procstate`. -/
inductive ProcState where
  | unused | used | sleeping | runnable | running | zombie
  deriving DecidableEq

/-! ## `fs.h` -/

abbrev ROOTINO : Nat := 1
abbrev BSIZE : Nat := 1024

/-- The contents of one disk block (`uchar data[BSIZE]`). -/
abbrev Block := ByteVec BSIZE

/-- The disk: block number to contents. -/
abbrev Disk := Nat → Block

/-- The sizes as numerals, for linear arithmetic. -/
theorem layout_sizes : BSIZE = 1024 ∧ LOGSIZE = 30 ∧ MAXOPBLOCKS = 10 := ⟨rfl, rfl, rfl⟩

/-- A C `int` from its 32-bit pattern. -/
def toInt32 (w : Nat) : Int := if w < 2 ^ 31 then w else (w : Int) - 2 ^ 32

theorem toInt32_of_lt {w : Nat} (h : w < 2 ^ 31) : toInt32 w = w := by
  rw [toInt32, if_pos h]

end Xv6
