import Xv6.FsOwner

/-!
# `bmap` and stores into a locked inode

A call that holds inode `i` locked works on an in-memory copy `ip` that
is ahead of the disk: `Locked` is ownership with `ip` in the place of
the on-disk inode. Two kinds of steps change the blocks of `ip`:

* `bmap` may give `ip` fresh, zeroed blocks;
* the body of `writei` stores into a data block that `ip` names.

Both are growth steps: slots in use keep their block, and a slot that
comes into use gets a block that was free. The content of the file, read
as zero where no block is mapped, is not changed by `bmap` at all.
-/

namespace Xv6

open Function Finset Nat

open ByteVec (Byte)

/-- Inode `i` is locked, with in-memory copy `ip`. -/
structure Locked (sb : Superblock) (d : Disk) (ino : Nat → Inode) (i : Nat) (ip : Inode) :
    Prop where
  owned : Owned sb d (update ino i ip)
  lt : i < sb.ninodes
  type : ip.type ≠ 0

/-- Byte `k` of the file; zero where no block is mapped. -/
def fileByte (d : Disk) (ip : Inode) (k : Nat) : Byte :=
  if slotVal d ip (slotOf (k / BSIZE)) = 0 then 0
  else (d (slotVal d ip (slotOf (k / BSIZE)))).byte (k % BSIZE)

/-- What a call may do to the disk and its locked inode before it writes
the inode back. -/
structure Grows (sb : Superblock) (d : Disk) (ip : Inode) (d' : Disk) (ip' : Inode) : Prop where
  fields : ip' = { ip with addrs := ip'.addrs }
  inodes : ∀ j < sb.ninodes, sb.dinode d' j = sb.dinode d j
  used : ∀ c, sb.Used d c → sb.Used d' c
  kept : ∀ s, slotVal d ip s ≠ 0 → slotVal d' ip' s = slotVal d ip s
  /-- a slot that comes into use gets a block that was free -/
  fresh : ∀ s, slotVal d ip s = 0 → slotVal d' ip' s ≠ 0 → ¬sb.Used d (slotVal d' ip' s)
  /-- the blocks of the other inodes -/
  frame : ∀ a, sb.Used d a → (∀ s, slotVal d ip s ≠ a) → d' a = d a

section Grows

variable {sb : Superblock} {d d' d'' : Disk} {ip ip' ip'' : Inode}

theorem Grows.refl : Grows sb d ip d ip :=
  ⟨rfl, fun _ _ => rfl, fun _ h => h, fun _ _ => rfl, fun _ h hne => absurd h hne, fun _ _ _ => rfl⟩

theorem Grows.type_eq (h : Grows sb d ip d' ip') : ip'.type = ip.type := by
  rw [h.fields]

theorem Grows.size_eq (h : Grows sb d ip d' ip') : ip'.size = ip.size := by
  rw [h.fields]

theorem Grows.trans (h : Grows sb d ip d' ip') (h' : Grows sb d' ip' d'' ip'') :
    Grows sb d ip d'' ip'' := by
  refine ⟨?_, fun j hj => (h'.inodes j hj).trans (h.inodes j hj), fun c hc => h'.used c (h.used c hc),
    fun s hs => ?_, fun s hs hs'' => ?_, fun a ha hno => ?_⟩
  · have hf := h.fields
    rw [h'.fields, hf]
  · have := h.kept s hs
    rw [h'.kept s (by rwa [this]), this]
  · by_cases hs' : slotVal d' ip' s = 0
    · exact fun hu => h'.fresh s hs' hs'' (h.used _ hu)
    · rw [h'.kept s hs']
      exact h.fresh s hs hs'
  · have hne : ∀ s, slotVal d' ip' s ≠ a := by
      rintro s rfl
      by_cases hs : slotVal d ip s = 0
      · exact h.fresh s hs ha.1.ne_zero ha
      · exact hno s (h.kept s hs).symm
    rw [h'.frame a (h.used a ha) hne, h.frame a ha hno]

end Grows

/-! ## Facts about a locked inode -/

section Locked

variable {sb : Superblock} {d d' : Disk} {ino : Nat → Inode} {i : Nat} {ip : Inode} {s : Nat}

theorem Locked.type_update (h : Locked sb d ino i ip) :
    (update ino i ip i).type ≠ 0 := by
  rw [update_self]
  exact h.type

theorem Locked.isUsed (h : Locked sb d ino i ip) (hs : slotVal d ip s ≠ 0) :
    sb.Used d (slotVal d ip s) := by
  have := h.owned.isUsed (s := s) h.lt h.type_update
  rw [update_self] at this
  exact this hs

theorem Locked.slot_inj {t : Nat} (h : Locked sb d ino i ip) (hs : slotVal d ip s ≠ 0)
    (heq : slotVal d ip t = slotVal d ip s) : t = s := by
  have := h.owned.slot_inj (s := s) (j := i) (t := t) h.lt h.type_update
  rw [update_self] at this
  exact (this hs h.lt h.type heq).2

theorem Locked.ne_indBlock (h : Locked sb d ino i ip) (hs : slotVal d ip s ≠ 0)
    (hind : s ≠ NDIRECT) : slotVal d ip s ≠ ip.addrs indSlot := by
  rw [← slotVal_ind (d := d)]
  exact fun heq => hind (h.slot_inj hs heq.symm).symm

/-- Ownership does not read the other fields. -/
theorem Locked.of_addrs {ip' : Inode} (h : Locked sb d ino i ip) (haddrs : ip'.addrs = ip.addrs)
    (htype : ip'.type = ip.type) : Locked sb d ino i ip' := by
  refine ⟨⟨h.owned.exact.congr (fun x => ?_) fun _ => Iff.rfl, h.owned.metaUsed⟩, h.lt,
    htype ▸ h.type⟩
  unfold slots
  by_cases hx : x.1 = i
  · rw [hx, update_self, update_self, htype,
      slotVal_congr haddrs fun _ => rfl]
  · grind

theorem Locked.indBlock (h : Locked sb d ino i ip) (hne : ip.addrs indSlot ≠ 0) :
    sb.Used d (ip.addrs indSlot) := by
  have := h.isUsed (s := NDIRECT) (slotVal_ind ▸ hne)
  rwa [slotVal_ind] at this

/-- The bytes of a file, from its slots and its data blocks. -/
theorem fileByte_congr {ip' : Inode} {k : Nat}
    (hslot : slotVal d' ip' (slotOf (k / BSIZE)) = slotVal d ip (slotOf (k / BSIZE)))
    (hblk : slotVal d ip (slotOf (k / BSIZE)) ≠ 0 →
      d' (slotVal d ip (slotOf (k / BSIZE))) = d (slotVal d ip (slotOf (k / BSIZE)))) :
    fileByte d' ip' k = fileByte d ip k := by
  unfold fileByte
  rw [hslot]
  split
  · rfl
  · rename_i hne
    rw [hblk hne]

end Locked

/-! ## A fresh block -/

section Fresh

variable {sb : Superblock} {d d₁ d' : Disk} {ino : Nat → Inode} {i b t : Nat} {ip ip' : Inode}

/-- Slot `t` got the block `b` that `balloc` took; of the data blocks in
use only the indirect block may have changed. -/
structure Assigned (sb : Superblock) (d : Disk) (ip : Inode) (d₁ d' : Disk) (ip' : Inode)
    (t b : Nat) : Prop where
  alloc : Allocated sb d d₁ b
  fields : ip' = { ip with addrs := ip'.addrs }
  inodes : ∀ j < sb.ninodes, sb.dinode d' j = sb.dinode d₁ j
  used : ∀ c, sb.Used d' c ↔ sb.Used d₁ c
  empty : slotVal d ip t = 0
  slot : ∀ s, slotVal d' ip' s = if s = t then b else slotVal d ip s
  frame : ∀ a, sb.IsData a → a ≠ ip.addrs indSlot ∨ ip.addrs indSlot = 0 → d' a = d₁ a

theorem Assigned.block_eq (ha : Assigned sb d ip d₁ d' ip' t b) {a : Nat} (hu : sb.Used d a)
    (hne : a ≠ ip.addrs indSlot) : d' a = d a := by
  rw [ha.frame a hu.1 (.inl hne)]
  refine ha.alloc.frame a hu.1 ?_
  rintro rfl
  exact ha.alloc.not_used hu

theorem Assigned.grows (ha : Assigned sb d ip d₁ d' ip' t b) : Grows sb d ip d' ip' := by
  refine ⟨ha.fields, fun j hj => (ha.inodes j hj).trans (ha.alloc.inodes j hj),
    fun c hc => (ha.used c).mpr ((ha.alloc.used_iff c).mpr (.inr hc)), fun s hs => ?_,
    fun s hs hs' => ?_, fun a hu hno => ha.block_eq hu ?_⟩
  · rw [ha.slot, if_neg]
    rintro rfl
    exact hs ha.empty
  · rw [ha.slot] at hs' ⊢
    by_cases hst : s = t
    · rw [if_pos hst]
      exact ha.alloc.not_used
    · grind
  · exact (hno NDIRECT).symm

theorem Assigned.fileByte_eq (ha : Assigned sb d ip d₁ d' ip' t b) (h : Locked sb d ino i ip)
    (k : Nat) : fileByte d' ip' k = fileByte d ip k := by
  by_cases hk : slotOf (k / BSIZE) = t
  · -- the fresh block is zeroed
    have hb : d' b = ByteVec.fill BSIZE 0 := by
      rw [ha.frame b ha.alloc.isData, ha.alloc.zero]
      by_cases hind : ip.addrs indSlot = 0
      · exact .inr hind
      · refine .inl fun heq => ha.alloc.not_used ?_
        rw [heq]
        exact h.indBlock hind
    have hmod : k % BSIZE < BSIZE := mod_lt _ (by decide)
    unfold fileByte
    simp [hk, ha.slot, ha.alloc.isData.ne_zero, ha.empty, hb, ByteVec.byte_fill hmod]
  · refine fileByte_congr (by rw [ha.slot, if_neg hk]) fun hne => ?_
    exact ha.block_eq (h.isUsed hne) (h.ne_indBlock hne (slotOf_ne_indSlot _))

/-- `addrs[k]` gets a block. -/
theorem Locked.assigned_addr (h : Locked sb d ino i ip) (ha : Allocated sb d d' b)
    {k : Fin (NDIRECT + 1)} (hk : ip.addrs k = 0) :
    Assigned sb d ip d' d' (ip.setAddr k b) k b ∧ Locked sb d' ino i (ip.setAddr k b) := by
  refine ⟨⟨ha, rfl, fun _ _ => rfl, fun _ => Iff.rfl, ?_, ?_, fun _ _ _ => rfl⟩, ?_, h.lt, h.type⟩
  · rw [slotVal_direct, hk]
  · refine slotVal_assign_addr hk ha.zero fun hne => ?_
    have hu := h.indBlock hne
    refine ha.frame _ hu.1 ?_
    rintro rfl
    exact ha.not_used hu
  · have := h.owned.assign_addr (k := k) ha h.lt h.type_update
    simp_all

/-- Entry `j` of the indirect block gets a block. -/
theorem Locked.assigned_entry (h : Locked sb d ino i ip) (ha : Allocated sb d d₁ b)
    (hne : ip.addrs indSlot ≠ 0) {j : Nat} (hj : j < NINDIRECT)
    (hzero : indEntry d (ip.addrs indSlot) j = 0)
    (hd' : d' = update d₁ (ip.addrs indSlot)
      ((d₁ (ip.addrs indSlot)).setWord 4 (4 * j) b)) :
    Assigned sb d ip d₁ d' ip (NDIRECT + 1 + j) b ∧ Locked sb d' ino i ip := by
  have hu := h.indBlock hne
  have hind : d₁ (ip.addrs indSlot) = d (ip.addrs indSlot) := by
    refine ha.frame _ hu.1 ?_
    rintro heq
    exact ha.not_used (heq ▸ hu)
  subst hd'
  refine ⟨⟨ha, rfl, fun j hj => Superblock.dinode_update_data hu.1 hj,
    fun c => used_update_data hu.1, ?_, ?_, fun a _ hor => ?_⟩, ?_, h.lt, h.type⟩
  · rw [slotVal_entry hj hne, hzero]
  · refine slotVal_assign_entry hj hne ha.isData.lt_word ?_
    rw [update_self, hind]
  · grind
  · have := h.owned.assign_entry (j := j) ha h.lt h.type_update
    grind

end Fresh

/-! ## Counting the free blocks -/

section Free

variable {sb : Superblock} {d d' : Disk} {b : Nat}

def Superblock.freeBlocks (sb : Superblock) (d : Disk) : Finset Nat :=
  (range sb.size).filter fun c => sb.bit d c = false

theorem Superblock.mem_freeBlocks {c : Nat} :
    c ∈ sb.freeBlocks d ↔ c < sb.size ∧ sb.bit d c = false := by
  rw [freeBlocks, mem_filter, mem_range]

theorem Superblock.freeBlocks_congr (h : ∀ c < sb.size, sb.bit d' c = sb.bit d c) :
    sb.freeBlocks d' = sb.freeBlocks d := by
  ext c
  rw [mem_freeBlocks, mem_freeBlocks]
  exact and_congr_right fun hc => by rw [h c hc]

theorem Allocated.card_free (ha : Allocated sb d d' b) :
    (sb.freeBlocks d').card + 1 = (sb.freeBlocks d).card := by
  have herase : sb.freeBlocks d' = (sb.freeBlocks d).erase b := by
    ext c
    rw [mem_erase, Superblock.mem_freeBlocks, Superblock.mem_freeBlocks]
    constructor
    · rintro ⟨hc, hbit⟩
      rw [ha.bits c hc] at hbit
      grind
    · rintro ⟨hcb, hc, hbit⟩
      exact ⟨hc, by rw [ha.bits c hc, if_neg hcb, hbit]⟩
  rw [herase]
  exact card_erase_add_one (Superblock.mem_freeBlocks.mpr ⟨ha.isData.2, ha.free⟩)

/-- `balloc` takes a free block, and panics only when there is none. -/
theorem balloc_spec {st : FsState} (hmeta : sb.MetaUsed st.data) :
    (∃ b st', balloc sb st = .ok (b, st') ∧ Allocated sb st.data st'.data b)
      ∨ balloc sb st = .error .outOfBlocks ∧ (sb.freeBlocks st.data).card = 0 := by
  cases hr : balloc sb st with
  | ok r => exact .inl ⟨r.1, r.2, rfl, balloc_ok hmeta hr⟩
  | error e =>
    obtain ⟨rfl, hfull⟩ := balloc_error hr
    refine .inr ⟨rfl, ?_⟩
    rw [Finset.card_eq_zero, eq_empty_iff_forall_notMem]
    intro c hc
    obtain ⟨hlt, hbit⟩ := Superblock.mem_freeBlocks.mp hc
    rw [hfull c hlt] at hbit
    cases hbit

end Free

/-! ## `bmap` -/

/-- The slots in `T` were filled from `m` free blocks, where they were
empty; the content of the file did not change. -/
structure Filled (sb : Superblock) (ino : Nat → Inode) (i : Nat) (d : Disk) (ip : Inode)
    (d' : Disk) (ip' : Inode) (T : Nat → Prop) (m : Nat) : Prop where
  locked : Locked sb d' ino i ip'
  grows : Grows sb d ip d' ip'
  bytes : ∀ k, fileByte d' ip' k = fileByte d ip k
  others : ∀ s, ¬T s → slotVal d' ip' s = slotVal d ip s
  filled : ∀ s, T s → slotVal d' ip' s ≠ 0
  free : (sb.freeBlocks d').card + m = (sb.freeBlocks d).card

/-- The number of blocks `bmap(ip, bn)` allocates. -/
def bmapNeed (d : Disk) (ip : Inode) (bn : Nat) : Nat :=
  (if NDIRECT ≤ bn ∧ ip.addrs indSlot = 0 then 1 else 0)
    + if slotVal d ip (slotOf bn) = 0 then 1 else 0

/-- The slots `bmap(ip, bn)` fills. -/
def bmapSlots (bn s : Nat) : Prop := s = slotOf bn ∨ NDIRECT ≤ bn ∧ s = NDIRECT

section Bmap

variable {sb : Superblock} {d d' d'' : Disk} {ino : Nat → Inode} {i m m' : Nat}
  {ip ip' ip'' : Inode} {T T' : Nat → Prop} {st : FsState}

theorem Filled.trans (h : Filled sb ino i d ip d' ip' T m)
    (h' : Filled sb ino i d' ip' d'' ip'' T' m') :
    Filled sb ino i d ip d'' ip'' (fun s => T' s ∨ T s) (m + m') := by
  refine ⟨h'.locked, h.grows.trans h'.grows, fun k => (h'.bytes k).trans (h.bytes k),
    fun s hs => ?_, fun s hs => ?_, ?_⟩
  · rw [h'.others s fun hT => hs (.inl hT), h.others s fun hT => hs (.inr hT)]
  · rcases hs with hs | hs
    · exact h'.filled s hs
    · have hne := h.filled s hs
      rwa [h'.grows.kept s hne]
  · have := h.free
    have := h'.free
    omega

theorem Locked.filled_refl (h : Locked sb d ino i ip) (hT : ∀ s, T s → slotVal d ip s ≠ 0) :
    Filled sb ino i d ip d ip T 0 :=
  ⟨h, .refl, fun _ => rfl, fun _ _ => rfl, hT, rfl⟩

theorem Assigned.filled {d₁ : Disk} {t b : Nat} (ha : Assigned sb d ip d₁ d' ip' t b)
    (h : Locked sb d ino i ip) (h' : Locked sb d' ino i ip')
    (hbits : ∀ c < sb.size, sb.bit d' c = sb.bit d₁ c) :
    Filled sb ino i d ip d' ip' (· = t) 1 := by
  refine ⟨h', ha.grows, ha.fileByte_eq h, fun s hs => by rw [ha.slot, if_neg hs], fun s hs => ?_, ?_⟩
  · rw [ha.slot, if_pos hs]
    exact ha.alloc.isData.ne_zero
  · rw [Superblock.freeBlocks_congr hbits]
    exact ha.alloc.card_free

theorem Locked.ballocAddr_spec (h : Locked sb st.data ino i ip) (k : Fin (NDIRECT + 1)) :
    (∃ a ip' st', ballocAddr sb st ip k = .ok (a, ip', st') ∧ ip'.addrs k = a ∧
      Filled sb ino i st.data ip st'.data ip' (· = k.val) (if ip.addrs k = 0 then 1 else 0))
    ∨ ballocAddr sb st ip k = .error .outOfBlocks ∧ ip.addrs k = 0
      ∧ (sb.freeBlocks st.data).card = 0 := by
  unfold ballocAddr
  by_cases hk : ip.addrs k = 0
  · rw [if_pos hk, if_pos hk]
    rcases balloc_spec h.owned.metaUsed with ⟨b, st', hb, ha⟩ | ⟨hb, hfull⟩
    · obtain ⟨hassign, hlocked⟩ := h.assigned_addr ha hk
      refine .inl ⟨b, ip.setAddr k b, st', by rw [hb]; rfl, Inode.setAddr_self .., ?_⟩
      exact hassign.filled h hlocked fun _ _ => rfl
    · exact .inr ⟨by rw [hb]; rfl, hk, hfull⟩
  · rw [if_neg hk, if_neg hk]
    refine .inl ⟨_, _, _, rfl, rfl, h.filled_refl ?_⟩
    rintro s rfl
    rwa [slotVal_direct]

theorem Locked.ballocEntry_spec (h : Locked sb st.data ino i ip) (hne : ip.addrs indSlot ≠ 0)
    {j : Nat} (hj : j < NINDIRECT) :
    (∃ a st', ballocEntry sb st (ip.addrs indSlot) j = .ok (a, st')
      ∧ slotVal st'.data ip (NDIRECT + 1 + j) = a
      ∧ Filled sb ino i st.data ip st'.data ip (· = NDIRECT + 1 + j)
        (if slotVal st.data ip (NDIRECT + 1 + j) = 0 then 1 else 0))
    ∨ ballocEntry sb st (ip.addrs indSlot) j = .error .outOfBlocks
      ∧ slotVal st.data ip (NDIRECT + 1 + j) = 0 ∧ (sb.freeBlocks st.data).card = 0 := by
  unfold ballocEntry
  rw [slotVal_entry hj hne]
  by_cases hz : indEntry st.data (ip.addrs indSlot) j = 0
  · rw [if_pos hz, if_pos hz]
    rcases balloc_spec h.owned.metaUsed with ⟨b, st', hb, ha⟩ | ⟨hb, hfull⟩
    · obtain ⟨hassign, hlocked⟩ := h.assigned_entry ha hne hj hz rfl
      refine .inl ⟨b, _, by rw [hb]; rfl, ?_, ?_⟩
      · show slotVal (update _ _ _) ip _ = b
        rw [hassign.slot, if_pos rfl]
      · exact hassign.filled h hlocked fun c hc =>
          Superblock.bit_update_data (h.indBlock hne).1 hc
    · exact .inr ⟨by rw [hb]; rfl, hz, hfull⟩
  · rw [if_neg hz, if_neg hz]
    refine .inl ⟨_, _, rfl, slotVal_entry hj hne, h.filled_refl ?_⟩
    rintro s rfl
    rwa [slotVal_entry hj hne]

theorem Filled.congr (h : Filled sb ino i d ip d' ip' T m) (hT : ∀ s, T' s ↔ T s) (hm : m' = m) :
    Filled sb ino i d ip d' ip' T' m' :=
  ⟨h.locked, h.grows, h.bytes, fun s hs => h.others s (mt (hT s).mpr hs),
    fun s hs => h.filled s ((hT s).mp hs), hm ▸ h.free⟩

theorem Locked.bmap_direct (h : Locked sb st.data ino i ip) {bn : Nat} (hbn : bn < NDIRECT) :
    (∃ a ip' st', bmap sb st ip bn = .ok (a, ip', st') ∧ slotVal st'.data ip' (slotOf bn) = a
      ∧ Filled sb ino i st.data ip st'.data ip' (bmapSlots bn) (bmapNeed st.data ip bn))
    ∨ bmap sb st ip bn = .error .outOfBlocks
      ∧ (sb.freeBlocks st.data).card < bmapNeed st.data ip bn := by
  have hslot : slotOf bn = bn := if_pos hbn
  have hneed : bmapNeed st.data ip bn
      = if ip.addrs ⟨bn, lt_succ_of_lt hbn⟩ = 0 then 1 else 0 := by
    rw [bmapNeed, if_neg (by omega), hslot, zero_add, slotVal, dif_pos (lt_succ_of_lt hbn)]
  rw [hneed, bmap, dif_pos hbn]
  rcases h.ballocAddr_spec ⟨bn, lt_succ_of_lt hbn⟩ with
    ⟨a, ip', st', hr, ha, hf⟩ | ⟨hr, hz, hfull⟩
  · refine .inl ⟨a, ip', st', hr, ?_, hf.congr (fun s => ?_) rfl⟩
    · rw [hslot, slotVal, dif_pos (lt_succ_of_lt hbn), ha]
    · unfold bmapSlots
      grind
  · grind

theorem Locked.bmap_indirect (h : Locked sb st.data ino i ip) {bn : Nat} (hbn : ¬bn < NDIRECT)
    (hmax : bn < MAXFILE) :
    (∃ a ip' st', bmap sb st ip bn = .ok (a, ip', st') ∧ slotVal st'.data ip' (slotOf bn) = a
      ∧ Filled sb ino i st.data ip st'.data ip' (bmapSlots bn) (bmapNeed st.data ip bn))
    ∨ bmap sb st ip bn = .error .outOfBlocks
      ∧ (sb.freeBlocks st.data).card < bmapNeed st.data ip bn := by
  have hslot : slotOf bn = NDIRECT + 1 + (bn - NDIRECT) := by
    rw [slotOf, if_neg hbn]
    omega
  have hj : bn - NDIRECT < NINDIRECT := by
    have := fs_sizes
    omega
  have hneed : bmapNeed st.data ip bn = (if ip.addrs indSlot = 0 then 1 else 0)
      + if slotVal st.data ip (slotOf bn) = 0 then 1 else 0 := by
    unfold bmapNeed
    simp only [show NDIRECT ≤ bn by omega, true_and]
  rw [hneed, bmap, dif_neg hbn, if_pos hj]
  rcases h.ballocAddr_spec indSlot with ⟨a, ip₁, st₁, hr, rfl, hf⟩ | ⟨hr, hz, hfull⟩
  · have hne : ip₁.addrs indSlot ≠ 0 := by
      rw [← slotVal_ind (d := st₁.data)]
      exact hf.filled NDIRECT rfl
    -- the entry is as it was before the indirect block was found
    have hentry := hf.others (slotOf bn) (slotOf_ne_indSlot bn)
    simp only [hr, bind, Except.bind]
    rcases hf.locked.ballocEntry_spec hne hj with ⟨a, st₂, hr₂, ha, hf₂⟩ | ⟨hr₂, hz, hfull⟩
    · refine .inl ⟨a, ip₁, st₂, ?_, hslot ▸ ha, (hf.trans hf₂).congr (fun s => ?_) ?_⟩
      · rw [hr₂]
      · simp_all [bmapSlots, hslot]
      · rw [← hentry, hslot]
    · refine .inr ⟨?_, ?_⟩
      · rw [hr₂]
      · have := hf.free
        grind
  · refine .inr ⟨by rw [hr]; rfl, ?_⟩
    rw [if_pos hz]
    omega

/-- **`bmap` on any state**: the block of `bn`, with fresh blocks where
there was none; it panics only when the free blocks do not suffice. -/
theorem Locked.bmap_spec (h : Locked sb st.data ino i ip) {bn : Nat} (hmax : bn < MAXFILE) :
    (∃ a ip' st', bmap sb st ip bn = .ok (a, ip', st') ∧ slotVal st'.data ip' (slotOf bn) = a
      ∧ Filled sb ino i st.data ip st'.data ip' (bmapSlots bn) (bmapNeed st.data ip bn))
    ∨ bmap sb st ip bn = .error .outOfBlocks
      ∧ (sb.freeBlocks st.data).card < bmapNeed st.data ip bn := by
  by_cases hbn : bn < NDIRECT
  · exact h.bmap_direct hbn
  · exact h.bmap_indirect hbn hmax

end Bmap

end Xv6
