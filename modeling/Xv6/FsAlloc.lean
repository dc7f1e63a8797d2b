import Xv6.FsDisk

/-!
# Allocating blocks and inodes

`bzero`, `balloc`, `bfree`, `ialloc` and `iupdate`. Each gets one lemma
that says what it does to the three views (bits, inodes, data blocks);
nothing later unfolds them.
-/

namespace Xv6

open Function List

/-! ## The functions -/

def bzero (st : FsState) (b : Nat) : FsState := st.logWrite b (ByteVec.fill BSIZE 0)

/-- The inner loop of `balloc`: the first free block whose bit is in the
bitmap block of `b`. -/
def ballocScan (sb : Superblock) (d : Disk) (b : Nat) : Option Nat :=
  ((range BPB).find? fun bi =>
    decide (b + bi < sb.size) && !(d (sb.bblock b)).bit bi).map (b + ·)

/-- Both loops: `b` steps by `BPB` up to `sb.size`. -/
def ballocFind (sb : Superblock) (d : Disk) : Option Nat :=
  (range ((sb.size + BPB - 1) / BPB)).findSome? fun k => ballocScan sb d (k * BPB)

def balloc (sb : Superblock) (st : FsState) : Except FsPanic (Nat × FsState) :=
  match ballocFind sb st.data with
  | none => .error .outOfBlocks
  | some b =>
      let bb := sb.bblock b
      .ok (b, bzero (st.logWrite bb ((st.data bb).setBit (b % BPB))) b)

def bfree (sb : Superblock) (st : FsState) (b : Nat) : Except FsPanic FsState :=
  let bb := sb.bblock b
  if (st.data bb).bit (b % BPB) then
    .ok (st.logWrite bb ((st.data bb).clearBit (b % BPB)))
  else .error .freeingFreeBlock

/-- Copy the in-memory inode to the disk. -/
def iupdate (sb : Superblock) (st : FsState) (inum : Nat) (ip : Inode) : FsState :=
  st.logWrite (sb.iblock inum) (ip.encode (st.data (sb.iblock inum)) (inum % IPB))

/-- A zeroed on-disk inode of the given type. -/
def Inode.fresh (type : Nat) : Inode :=
  { type := type, major := 0, minor := 0, nlink := 0, size := 0, addrs := fun _ => 0 }

/-- `ialloc` up to its `iget`: the first free inode is cleared and given
its type. -/
def ialloc (sb : Superblock) (st : FsState) (type : Nat) : Except FsPanic (Nat × FsState) :=
  match (range' 1 (sb.ninodes - 1)).find? fun i => (sb.dinode st.data i).type = 0 with
  | none => .error .noInodes
  | some inum => .ok (inum, iupdate sb st inum (Inode.fresh type))

/-- `ilock` of an inode: the in-memory copy is the on-disk inode. -/
def ilock (sb : Superblock) (st : FsState) (inum : Nat) : Except FsPanic Inode :=
  let ip := sb.dinode st.data inum
  if ip.type = 0 then .error .noType else .ok ip

/-! ## What they do -/

/-- The bits of everything but the data area are set. -/
def Superblock.MetaUsed (sb : Superblock) (d : Disk) : Prop :=
  ∀ b < sb.dataStart, sb.bit d b = true

/-- `balloc` took block `b`. -/
structure Allocated (sb : Superblock) (d d' : Disk) (b : Nat) : Prop where
  isData : sb.IsData b
  free : sb.bit d b = false
  bits : ∀ c < sb.size, sb.bit d' c = if c = b then true else sb.bit d c
  inodes : ∀ i < sb.ninodes, sb.dinode d' i = sb.dinode d i
  zero : d' b = ByteVec.fill BSIZE 0
  frame : ∀ a, sb.IsData a → a ≠ b → d' a = d a

/-- `bfree` gave back block `b`. -/
structure Freed (sb : Superblock) (d d' : Disk) (b : Nat) : Prop where
  bits : ∀ c, sb.bit d' c = if c = b then false else sb.bit d c
  inodes : ∀ i < sb.ninodes, sb.dinode d' i = sb.dinode d i
  frame : ∀ a, sb.IsData a → d' a = d a

/-- `iupdate` stored inode `inum`. -/
structure Updated (sb : Superblock) (d d' : Disk) (inum : Nat) (ip : Inode) : Prop where
  bits : ∀ c, sb.bit d' c = sb.bit d c
  inodes : ∀ i, sb.dinode d' i = if i = inum then ip else sb.dinode d i
  frame : ∀ a, sb.IsData a → d' a = d a

variable {d : Disk} {e : FsPanic} {type : Nat}

section Specs

variable {sb : Superblock} {st st' : FsState} {b inum : Nat}

theorem ballocScan_some {k : Nat} (h : ballocScan sb d (k * BPB) = some b) :
    b < sb.size ∧ sb.bit d b = false := by
  obtain ⟨bi, hbi, rfl⟩ := Option.map_eq_some_iff.mp h
  have hp := find?_some hbi
  simp only [Bool.and_eq_true, decide_eq_true_eq, Bool.not_eq_true'] at hp
  have hdiv : (k * BPB + bi) / BPB = k := by grind
  have hmod : (k * BPB + bi) % BPB = bi := by grind
  refine ⟨hp.1, ?_⟩
  rw [Superblock.bit, hmod]
  have hk : sb.bblock (k * BPB + bi) = sb.bblock (k * BPB) := by
    rw [Superblock.bblock, hdiv, Superblock.bblock, Nat.mul_div_cancel _ (by decide)]
  rw [hk]
  exact hp.2

theorem ballocScan_none {c : Nat} (h : ballocScan sb d (c / BPB * BPB) = none) (hc : c < sb.size) :
    sb.bit d c = true := by
  unfold ballocScan at h
  rw [Option.map_eq_none_iff, find?_eq_none] at h
  have hmod : c % BPB < BPB := Nat.mod_lt _ (by decide)
  have := h (c % BPB) (mem_range.mpr hmod)
  have hsum : c / BPB * BPB + c % BPB = c := by grind
  have hk : sb.bblock (c / BPB * BPB) = sb.bblock c := by
    rw [Superblock.bblock, Nat.mul_div_cancel _ (by decide), Superblock.bblock]
  rw [hsum, hk] at this
  simpa [hc, Superblock.bit] using this

theorem ballocFind_some (h : ballocFind sb d = some b) : b < sb.size ∧ sb.bit d b = false := by
  obtain ⟨k, -, hk⟩ := exists_of_findSome?_eq_some h
  exact ballocScan_some hk

/-- `balloc` panics only when every block is marked used. -/
theorem ballocFind_none (h : ballocFind sb d = none) {c : Nat} (hc : c < sb.size) :
    sb.bit d c = true := by
  refine ballocScan_none (findSome?_eq_none_iff.mp h (c / BPB) ?_) hc
  rw [mem_range]
  show c / 8192 < (sb.size + 8192 - 1) / 8192
  omega

theorem balloc_ok (hmeta : sb.MetaUsed st.data) (h : balloc sb st = .ok (b, st')) :
    Allocated sb st.data st'.data b := by
  unfold balloc at h
  split at h
  · cases h
  · rename_i c hfind
    simp only [Except.ok.injEq, Prod.mk.injEq] at h
    obtain ⟨rfl, rfl⟩ := h
    obtain ⟨hlt, hfree⟩ := ballocFind_some hfind
    have hdata : sb.IsData c := by
      refine ⟨?_, hlt⟩
      by_contra hno
      rw [hmeta c (by omega)] at hfree
      cases hfree
    refine ⟨hdata, hfree, fun e he => ?_, fun i hi => ?_, update_self ..,
      fun a ha hab => ?_⟩
    · show sb.bit (update (update _ _ _) c _) e = _
      rw [Superblock.bit_update_data hdata he, Superblock.bit_setBit]
    · show sb.dinode (update (update _ _ _) c _) i = _
      rw [Superblock.dinode_update_data hdata hi, Superblock.dinode_update_bitmap hi]
    · show update (update st.data _ _) c _ a = _
      rw [update_of_ne hab, Superblock.data_update_bitmap ha hlt]

theorem balloc_error (h : balloc sb st = .error e) :
    e = .outOfBlocks ∧ ∀ c < sb.size, sb.bit st.data c = true := by
  unfold balloc at h
  split at h
  · grind [ballocFind_none]
  · cases h

/-- Freeing a block that is marked used succeeds. -/
theorem bfree_ok (hb : b < sb.size) (hbit : sb.bit st.data b = true) :
    ∃ st', bfree sb st b = .ok st' ∧ Freed sb st.data st'.data b := by
  unfold bfree
  have hset : (st.data (sb.bblock b)).bit (b % BPB) = true := hbit
  rw [if_pos hset]
  refine ⟨_, rfl, fun c => Superblock.bit_clearBit b c,
    fun i hi => Superblock.dinode_update_bitmap hi,
    fun a ha => Superblock.data_update_bitmap ha hb⟩

theorem iupdate_spec {ip : Inode} (hip : ip.Fits) (hi : inum < sb.ninodes) :
    Updated sb st.data (iupdate sb st inum ip).data inum ip :=
  ⟨fun _ => Superblock.bit_update_inode hi, fun i => Superblock.dinode_encode hip inum i,
    fun _ ha => Superblock.data_update_inode ha hi⟩

theorem Inode.fresh_fits (h : type < 256 ^ 2) : (Inode.fresh type).Fits :=
  have hpos : ∀ k, 0 < 256 ^ k := fun k => Nat.pow_pos (by decide)
  ⟨h, hpos 2, hpos 2, hpos 2, hpos 4, fun _ => hpos 4⟩

theorem ialloc_ok (ht : type < 256 ^ 2) (h : ialloc sb st type = .ok (inum, st')) :
    0 < inum ∧ inum < sb.ninodes ∧ (sb.dinode st.data inum).type = 0
      ∧ Updated sb st.data st'.data inum (Inode.fresh type) := by
  unfold ialloc at h
  split at h
  · cases h
  · grind [iupdate_spec, Inode.fresh_fits]

theorem ialloc_error (h : ialloc sb st type = .error e) : e = .noInodes := by
  unfold ialloc at h
  split at h
  · exact (Except.error.inj h).symm
  · cases h

theorem ilock_ok {ip : Inode} (h : ilock sb st inum = .ok ip) :
    ip = sb.dinode st.data inum ∧ ip.type ≠ 0 := by
  unfold ilock at h
  dsimp only at h
  split at h
  · cases h
  · grind

theorem ilock_error (h : ilock sb st inum = .error e) : e = .noType := by
  grind [ilock]

end Specs

end Xv6
