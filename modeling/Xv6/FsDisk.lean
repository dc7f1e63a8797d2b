import Xv6.Layout

/-!
# Blocks and inodes on the disk

The lower half of `fs.c`: the superblock's layout, the free bitmap, the
64-byte on-disk inodes, and `balloc`, `bfree`, `bzero`, `ialloc`,
`iupdate` over them. Blocks are read and written as the array the buffer
cache and the log make of the disk; `logged` lists the blocks passed to
`log_write`.

The three regions are disjoint, so each primitive changes one kind of
thing: `balloc` and `bfree` one bit, `ialloc` and `iupdate` one inode,
a store into a data block neither. Those frame facts, stated here once
per region, are all that later files use of the layout.
-/

namespace Xv6

open Function List Nat

/-! ## `fs.h` -/

abbrev NDIRECT : Nat := 12
abbrev NINDIRECT : Nat := BSIZE / 4
abbrev MAXFILE : Nat := NDIRECT + NINDIRECT
/-- Inodes per block; a `struct dinode` has 64 bytes. -/
abbrev IPB : Nat := BSIZE / 64
/-- Bitmap bits per block. -/
abbrev BPB : Nat := BSIZE * 8

theorem fs_sizes : NDIRECT = 12 ∧ NINDIRECT = 256 ∧ MAXFILE = 268 ∧ IPB = 16 ∧ BPB = 8192
    ∧ BSIZE = 1024 := ⟨rfl, rfl, rfl, rfl, rfl, rfl⟩

/-- The superblock, with the layout `mkfs` gives it: log, inode blocks,
bitmap and data area in this order. -/
structure Superblock where
  size : Nat
  ninodes : Nat
  nlog : Nat
  logstart : Nat
  inodestart : Nat
  bmapstart : Nat
  log_fit : logstart + nlog ≤ inodestart
  inodes_fit : inodestart + ninodes / IPB < bmapstart
  bitmap_fit : bmapstart + size / BPB < size
  size_lt : size < 2 ^ 31

variable {b k : Nat} {ip : Inode}

namespace Superblock

variable (sb : Superblock)

/-- `IBLOCK(i, sb)`. -/
def iblock (i : Nat) : Nat := i / IPB + sb.inodestart

/-- `BBLOCK(b, sb)`. -/
def bblock (b : Nat) : Nat := b / BPB + sb.bmapstart

/-- The first data block. -/
def dataStart : Nat := sb.bmapstart + sb.size / BPB + 1

/-- Block `b` is in the data area. -/
def IsData (b : Nat) : Prop := sb.dataStart ≤ b ∧ b < sb.size

instance (b : Nat) : Decidable (sb.IsData b) := inferInstanceAs (Decidable (_ ∧ _))

theorem bmapstart_lt_dataStart : sb.bmapstart < sb.dataStart :=
  lt_succ_of_le (Nat.le_add_right ..)

theorem bmapstart_le_bblock (b : Nat) : sb.bmapstart ≤ sb.bblock b :=
  Nat.le_add_left ..

variable {sb}

theorem iblock_lt {i : Nat} (hi : i < sb.ninodes) : sb.iblock i < sb.bmapstart := by
  have := sb.inodes_fit
  have : i / IPB ≤ sb.ninodes / IPB := Nat.div_le_div_right (by omega)
  unfold iblock
  omega

theorem bblock_lt (hb : b < sb.size) : sb.bblock b < sb.dataStart := by
  have : b / BPB ≤ sb.size / BPB := Nat.div_le_div_right (by omega)
  unfold bblock dataStart
  omega

theorem IsData.ne_iblock {i : Nat} (h : sb.IsData b) (hi : i < sb.ninodes) : sb.iblock i ≠ b := by
  have := iblock_lt hi
  have := sb.bmapstart_lt_dataStart
  have := h.1
  omega

theorem IsData.ne_bblock {c : Nat} (h : sb.IsData b) (hc : c < sb.size) : sb.bblock c ≠ b := by
  have := bblock_lt hc
  have := h.1
  omega

theorem iblock_ne_bblock {i c : Nat} (hi : i < sb.ninodes) : sb.iblock i ≠ sb.bblock c := by
  have := iblock_lt hi
  have := sb.bmapstart_le_bblock c
  omega

theorem IsData.ne_zero (h : sb.IsData b) : b ≠ 0 := by
  have := h.1
  have := sb.bmapstart_lt_dataStart
  omega

theorem IsData.lt_word (h : sb.IsData b) : b < 256 ^ 4 := by
  have := sb.size_lt
  have := h.2
  omega

end Superblock

/-! ## Inodes -/

inductive FileType
  | dir
  | file
  | device
  deriving DecidableEq

/-- `T_DIR`, `T_FILE` and `T_DEVICE`. -/
def FileType.code : FileType → Nat
  | .dir => 1
  | .file => 2
  | .device => 3

/-- `struct dinode`, and the part of `struct inode` that is a copy of
it. -/
structure Inode where
  type : Nat
  major : Nat
  minor : Nat
  nlink : Nat
  size : Nat
  addrs : Fin (NDIRECT + 1) → Nat

/-- The fields fit their C types. -/
structure Inode.Fits (ip : Inode) : Prop where
  type : ip.type < 256 ^ 2
  major : ip.major < 256 ^ 2
  minor : ip.minor < 256 ^ 2
  nlink : ip.nlink < 256 ^ 2
  size : ip.size < 256 ^ 4
  addrs : ∀ i, ip.addrs i < 256 ^ 4

/-- Read inode `k` of a block. -/
def Inode.decode (blk : Block) (k : Nat) : Inode :=
  { type := blk.word 2 (64 * k)
    major := blk.word 2 (64 * k + 2)
    minor := blk.word 2 (64 * k + 4)
    nlink := blk.word 2 (64 * k + 6)
    size := blk.word 4 (64 * k + 8)
    addrs := fun i => blk.word 4 (64 * k + 12 + 4 * i) }

/-- Store inode `k` of a block. -/
def Inode.encode (ip : Inode) (blk : Block) (k : Nat) : Block :=
  (((((blk.setWord 2 (64 * k) ip.type).setWord 2 (64 * k + 2) ip.major).setWord 2
    (64 * k + 4) ip.minor).setWord 2 (64 * k + 6) ip.nlink).setWord 4 (64 * k + 8)
    ip.size).setWords 4 (64 * k + 12) (ofFn ip.addrs)

theorem Inode.decode_fits (blk : Block) (k : Nat) : (Inode.decode blk k).Fits :=
  ⟨blk.word_lt 2 _, blk.word_lt 2 _, blk.word_lt 2 _, blk.word_lt 2 _, blk.word_lt 4 _,
    fun _ => blk.word_lt 4 _⟩

theorem Inode.ext_fields {iq : Inode} (h1 : ip.type = iq.type) (h2 : ip.major = iq.major)
    (h3 : ip.minor = iq.minor) (h4 : ip.nlink = iq.nlink) (h5 : ip.size = iq.size)
    (h6 : ∀ i, ip.addrs i = iq.addrs i) : ip = iq := by
  obtain ⟨⟩ := ip
  simp only at h1 h2 h3 h4 h5 h6
  simp [h1, h2, h3, h4, h5, funext h6]

theorem Inode.decode_encode_self (h : ip.Fits) (blk : Block) (hk : k < IPB) :
    Inode.decode (ip.encode blk k) k = ip := by
  have hsizes := fs_sizes
  have hlen : (ofFn ip.addrs).length = 13 := by simp
  -- reading past the address words
  have hpast : ∀ {v : Block} {k' off : Nat}, off + k' ≤ 64 * k + 12 →
      (v.setWords 4 (64 * k + 12) (ofFn ip.addrs)).word k' off = v.word k' off := by
    intro v k' off hoff
    exact ByteVec.word_setWords_disjoint (.inl hoff)
  refine Inode.ext_fields ?_ ?_ ?_ ?_ ?_ fun i => ?_
  · show (ip.encode blk k).word 2 (64 * k) = _
    rw [Inode.encode, hpast (by omega)]
    iterate 4 rw [ByteVec.word_setWord_disjoint (by omega)]
    rw [ByteVec.word_setWord_self (by omega), mod_eq_of_lt h.type]
  · show (ip.encode blk k).word 2 (64 * k + 2) = _
    rw [Inode.encode, hpast (by omega)]
    iterate 3 rw [ByteVec.word_setWord_disjoint (by omega)]
    rw [ByteVec.word_setWord_self (by omega), mod_eq_of_lt h.major]
  · show (ip.encode blk k).word 2 (64 * k + 4) = _
    rw [Inode.encode, hpast (by omega)]
    iterate 2 rw [ByteVec.word_setWord_disjoint (by omega)]
    rw [ByteVec.word_setWord_self (by omega), mod_eq_of_lt h.minor]
  · show (ip.encode blk k).word 2 (64 * k + 6) = _
    rw [Inode.encode, hpast (by omega), ByteVec.word_setWord_disjoint (by omega),
      ByteVec.word_setWord_self (by omega), mod_eq_of_lt h.nlink]
  · show (ip.encode blk k).word 4 (64 * k + 8) = _
    rw [Inode.encode, hpast (by omega), ByteVec.word_setWord_self (by omega),
      mod_eq_of_lt h.size]
  · show (ip.encode blk k).word 4 (64 * k + 12 + 4 * i) = _
    rw [Inode.encode, ByteVec.word_setWords_self (by rw [hlen]; omega) (by rw [hlen]; omega)]
    have hget : (ofFn ip.addrs).getD i 0 = ip.addrs i := by grind
    rw [hget, mod_eq_of_lt (h.addrs i)]

/-- Storing inode `k` keeps the words of the other inodes of the block. -/
theorem Inode.word_encode_other (blk : Block) {k' off : Nat}
    (h : off + k' ≤ 64 * k ∨ 64 * k + 64 ≤ off) :
    (ip.encode blk k).word k' off = blk.word k' off := by
  have hlen : (ofFn ip.addrs).length = 13 := by simp
  rw [Inode.encode, ByteVec.word_setWords_disjoint (by rw [hlen]; omega)]
  iterate 5 rw [ByteVec.word_setWord_disjoint (by omega)]

theorem Inode.decode_encode_other (blk : Block) {j : Nat} (h : j ≠ k) :
    Inode.decode (ip.encode blk k) j = Inode.decode blk j := by
  refine Inode.ext_fields ?_ ?_ ?_ ?_ ?_ fun i => ?_
  · exact Inode.word_encode_other blk (by omega)
  · exact Inode.word_encode_other blk (by omega)
  · exact Inode.word_encode_other blk (by omega)
  · exact Inode.word_encode_other blk (by omega)
  · exact Inode.word_encode_other blk (by omega)
  · have : i.val < 13 := i.isLt
    exact Inode.word_encode_other blk (by omega)

/-! ## The state and its views -/

/-- The blocks as `bread` shows them, and the blocks passed to
`log_write` so far. -/
structure FsState where
  data : Disk
  logged : List Nat

/-- Store into a block's buffer and pass it to `log_write`. -/
def FsState.logWrite (st : FsState) (b : Nat) (v : Block) : FsState :=
  { data := update st.data b v, logged := st.logged ++ [b] }

inductive FsPanic where
  | outOfBlocks
  | freeingFreeBlock
  | outOfRange
  | noInodes
  | noType
deriving DecidableEq, Repr

/-- The message `panic` prints. -/
def FsPanic.message : FsPanic → String
  | .outOfBlocks => "balloc: out of blocks"
  | .freeingFreeBlock => "freeing free block"
  | .outOfRange => "bmap: out of range"
  | .noInodes => "ialloc: no inodes"
  | .noType => "ilock: no type"

namespace Superblock

variable (sb : Superblock)

/-- The bit of block `b` in the free bitmap. -/
def bit (d : Disk) (b : Nat) : Bool := (d (sb.bblock b)).bit (b % BPB)

/-- The on-disk inode `i`. -/
def dinode (d : Disk) (i : Nat) : Inode := Inode.decode (d (sb.iblock i)) (i % IPB)

variable {sb}

/-! ### A store into one region shows in no other -/

section Frames

variable {d : Disk} {a i c x : Nat} {v : Block}

theorem bit_update_data (hx : sb.IsData x) (hc : c < sb.size) :
    sb.bit (update d x v) c = sb.bit d c := by
  rw [bit, update_of_ne (hx.ne_bblock hc), bit]

theorem dinode_update_data (hx : sb.IsData x) (hi : i < sb.ninodes) :
    sb.dinode (update d x v) i = sb.dinode d i := by
  rw [dinode, update_of_ne (hx.ne_iblock hi), dinode]

theorem dinode_update_bitmap (hi : i < sb.ninodes) :
    sb.dinode (update d (sb.bblock x) v) i = sb.dinode d i := by
  rw [dinode, update_of_ne (iblock_ne_bblock hi), dinode]

theorem data_update_bitmap (ha : sb.IsData a) (hx : x < sb.size) :
    update d (sb.bblock x) v a = d a :=
  update_of_ne (ha.ne_bblock hx).symm ..

theorem bit_update_inode (hx : x < sb.ninodes) :
    sb.bit (update d (sb.iblock x) v) c = sb.bit d c := by
  rw [bit, update_of_ne (iblock_ne_bblock hx).symm, bit]

theorem data_update_inode (ha : sb.IsData a) (hx : x < sb.ninodes) :
    update d (sb.iblock x) v a = d a :=
  update_of_ne (ha.ne_iblock hx).symm ..

theorem bit_setBit (x c : Nat) :
    sb.bit (update d (sb.bblock x) ((d (sb.bblock x)).setBit (x % BPB))) c
      = if c = x then true else sb.bit d c := by
  have hlt : c % BPB < 8 * BSIZE := mod_lt _ (by decide)
  by_cases hb : sb.bblock c = sb.bblock x
  · rw [bit, hb, update_self, ByteVec.bit_setBit hlt, bit, hb]
    grind [bblock]
  · grind [bit, update_of_ne hb]

theorem bit_clearBit (x c : Nat) :
    sb.bit (update d (sb.bblock x) ((d (sb.bblock x)).clearBit (x % BPB))) c
      = if c = x then false else sb.bit d c := by
  have hlt : c % BPB < 8 * BSIZE := mod_lt _ (by decide)
  by_cases hb : sb.bblock c = sb.bblock x
  · rw [bit, hb, update_self, ByteVec.bit_clearBit hlt, bit, hb]
    grind [bblock]
  · grind [bit, update_of_ne hb]

/-- `iupdate` changes one inode. -/
theorem dinode_encode (hip : ip.Fits) (x i : Nat) :
    sb.dinode (update d (sb.iblock x) (ip.encode (d (sb.iblock x)) (x % IPB))) i
      = if i = x then ip else sb.dinode d i := by
  by_cases hb : sb.iblock i = sb.iblock x
  · have hdiv : i / IPB = x / IPB := by
      unfold iblock at hb
      omega
    rw [dinode, hb, update_self]
    by_cases hix : i = x
    · rw [if_pos hix, hix, Inode.decode_encode_self hip _ (mod_lt _ (by decide))]
    · have hmod : i % IPB ≠ x % IPB := by grind
      rw [if_neg hix, Inode.decode_encode_other _ hmod, dinode, hb]
  · grind [dinode, update_of_ne hb]

end Frames

end Superblock

end Xv6
