import Xv6.FsInode
import Xv6.Ownership

/-!
# Who owns a disk block

An inode names blocks in `addrs` and, through its indirect block, in 256
further entries: its *slots*. `Owned` says that the slots of the
allocated inodes own the data blocks marked used exactly. It is stated
for a map `ino` of inodes that need not be the one on the disk, because
during a call the locked inode is ahead of its on-disk copy.

`bmap` gives a fresh block to an empty slot, `itrunc` empties all slots
of an inode; a store into a file's data block touches no slot, since a
data block is nobody's indirect block.
-/

namespace Xv6

open Function Ownership

/-! ## Slots -/

/-- The slots of an inode: `addrs`, then the entries of its indirect
block. -/
def slotVal (d : Disk) (ip : Inode) (s : Nat) : Nat :=
  if h : s < NDIRECT + 1 then ip.addrs ⟨s, h⟩
  else if s < NDIRECT + 1 + NINDIRECT ∧ ip.addrs indSlot ≠ 0 then
    indEntry d (ip.addrs indSlot) (s - (NDIRECT + 1))
  else 0

/-- The slot of file block `bn`. -/
def slotOf (bn : Nat) : Nat := if bn < NDIRECT then bn else bn + 1

/-- Block numbers in slots; zero is an empty slot. -/
def nonzero (v : Nat) : Option Nat := if v = 0 then none else some v

theorem nonzero_eq_some {v b : Nat} : nonzero v = some b ↔ v = b ∧ v ≠ 0 := by
  unfold nonzero
  split
  · simp [*]
  · simp [*]

/-- All slots of the allocated inodes. -/
def slots (sb : Superblock) (d : Disk) (ino : Nat → Inode) (x : Nat × Nat) : Option Nat :=
  if x.1 < sb.ninodes ∧ (ino x.1).type ≠ 0 then nonzero (slotVal d (ino x.1) x.2) else none

/-- A data block marked used. -/
def Superblock.Used (sb : Superblock) (d : Disk) (b : Nat) : Prop :=
  sb.IsData b ∧ sb.bit d b = true

/-- The inodes own the used data blocks exactly. -/
structure Owned (sb : Superblock) (d : Disk) (ino : Nat → Inode) : Prop where
  exact : Exact (slots sb d ino) (sb.Used d)
  metaUsed : sb.MetaUsed d

section Slots

variable {sb : Superblock} {d d' : Disk} {ino : Nat → Inode} {ip : Inode} {i s b : Nat}

theorem slots_eq_some : slots sb d ino (i, s) = some b ↔
    i < sb.ninodes ∧ (ino i).type ≠ 0 ∧ slotVal d (ino i) s = b ∧ b ≠ 0 := by
  unfold slots
  split
  · simp_all [nonzero_eq_some]
  · grind

theorem slotVal_direct (k : Fin (NDIRECT + 1)) : slotVal d ip k = ip.addrs k := by
  rw [slotVal, dif_pos k.isLt]

theorem slotVal_ind : slotVal d ip NDIRECT = ip.addrs indSlot := slotVal_direct indSlot

theorem slotVal_entry {j : Nat} (hj : j < NINDIRECT) (hne : ip.addrs indSlot ≠ 0) :
    slotVal d ip (NDIRECT + 1 + j) = indEntry d (ip.addrs indSlot) j := by
  rw [slotVal, dif_neg (by omega), if_pos ⟨by omega, hne⟩, Nat.add_sub_cancel_left]

/-- Slots are read off `addrs` and the indirect block. -/
theorem slotVal_congr {iq : Inode} (haddrs : iq.addrs = ip.addrs)
    (hind : ip.addrs indSlot ≠ 0 → d' (ip.addrs indSlot) = d (ip.addrs indSlot)) :
    slotVal d' iq s = slotVal d ip s := by
  unfold slotVal
  rw [haddrs]
  split
  · rfl
  · split
    · rename_i h
      rw [indEntry, hind h.2, indEntry]
    · rfl

theorem slotOf_ne_indSlot (bn : Nat) : slotOf bn ≠ NDIRECT := by
  unfold slotOf
  split <;> omega

theorem slotOf_inj {m n : Nat} (h : slotOf m = slotOf n) : m = n := by grind [slotOf]

/-- A slot names a used data block. -/
theorem Owned.isUsed (h : Owned sb d ino) (hi : i < sb.ninodes) (ht : (ino i).type ≠ 0)
    (hne : slotVal d (ino i) s ≠ 0) : sb.Used d (slotVal d (ino i) s) :=
  h.exact.mem (slots_eq_some.mpr ⟨hi, ht, rfl, hne⟩)

/-- Two slots that name one block are one slot. -/
theorem Owned.slot_inj {j t : Nat} (h : Owned sb d ino) (hi : i < sb.ninodes)
    (ht : (ino i).type ≠ 0) (hne : slotVal d (ino i) s ≠ 0) (hj : j < sb.ninodes)
    (htj : (ino j).type ≠ 0) (heq : slotVal d (ino j) t = slotVal d (ino i) s) :
    j = i ∧ t = s := by
  have := h.exact.inj (slots_eq_some.mpr ⟨hj, htj, heq, hne⟩)
    (slots_eq_some.mpr ⟨hi, ht, rfl, hne⟩)
  exact Prod.mk.inj this

/-- The indirect block of an allocated inode is a used data block. -/
theorem Owned.indBlock (h : Owned sb d ino) (hi : i < sb.ninodes) (ht : (ino i).type ≠ 0)
    (hne : (ino i).addrs indSlot ≠ 0) : sb.Used d ((ino i).addrs indSlot) := by
  have := h.isUsed (s := NDIRECT) hi ht (slotVal_ind ▸ hne)
  rwa [slotVal_ind] at this

/-- Another slot does not name the indirect block. -/
theorem Owned.ne_indBlock {j : Nat} (h : Owned sb d ino) (hi : i < sb.ninodes)
    (ht : (ino i).type ≠ 0) (hne : slotVal d (ino i) s ≠ 0) (hj : j < sb.ninodes)
    (htj : (ino j).type ≠ 0) (hother : (j, NDIRECT) ≠ (i, s)) :
    (ino j).addrs indSlot ≠ slotVal d (ino i) s := fun heq => by
  rw [← slotVal_ind (d := d)] at heq
  obtain ⟨rfl, rfl⟩ := h.slot_inj hi ht hne hj htj heq
  exact hother rfl

end Slots

/-! ## Changes that keep the slots of an inode -/

section Keep

variable {sb : Superblock} {d d' : Disk} {ino : Nat → Inode} {i s b : Nat}

/-- What `balloc` makes used. -/
theorem Allocated.used_iff (ha : Allocated sb d d' b) (c : Nat) :
    sb.Used d' c ↔ c = b ∨ sb.Used d c := by
  unfold Superblock.Used
  constructor
  · rintro ⟨hdata, hbit⟩
    rw [ha.bits c hdata.2] at hbit
    grind
  · rintro (rfl | ⟨hdata, hbit⟩)
    · exact ⟨ha.isData, by rw [ha.bits c ha.isData.2, if_pos rfl]⟩
    · simp_all [ha.bits c hdata.2]

theorem Allocated.not_used (ha : Allocated sb d d' b) : ¬sb.Used d b := fun h => by
  have := h.2
  rw [ha.free] at this
  cases this

theorem Allocated.metaUsed (ha : Allocated sb d d' b) (h : sb.MetaUsed d) : sb.MetaUsed d' := by
  intro c hc
  have hsize : c < sb.size := by
    have := ha.isData.1
    have := ha.isData.2
    omega
  rw [ha.bits c hsize]
  split
  · rfl
  · exact h c hc

theorem used_update_data {a c : Nat} {blk : Block} (ha : sb.IsData a) :
    sb.Used (update d a blk) c ↔ sb.Used d c :=
  and_congr_right fun hc => by rw [Superblock.bit_update_data ha hc.2]

theorem metaUsed_update_data {a : Nat} {blk : Block} (ha : sb.IsData a) (h : sb.MetaUsed d) :
    sb.MetaUsed (update d a blk) := by
  intro c hc
  have hsize : c < sb.size := by
    have := ha.1
    have := ha.2
    omega
  rw [Superblock.bit_update_data ha hsize]
  exact h c hc

end Keep

/-! ## A fresh block for an empty slot -/

section Assign

variable {sb : Superblock} {d d' : Disk} {ino : Nat → Inode} {ip : Inode} {i b : Nat}

theorem indEntry_zero {a : Nat} (h : d a = ByteVec.fill BSIZE 0) (j : Nat) : indEntry d a j = 0 := by
  rw [indEntry, h, ByteVec.word_fill_zero]

/-- The slots after `addrs[k]` got the zeroed block `b`. -/
theorem slotVal_assign_addr {k : Fin (NDIRECT + 1)} (hk : ip.addrs k = 0)
    (hzero : d' b = ByteVec.fill BSIZE 0)
    (hind : ip.addrs indSlot ≠ 0 → d' (ip.addrs indSlot) = d (ip.addrs indSlot)) (s : Nat) :
    slotVal d' (ip.setAddr k b) s = if s = k then b else slotVal d ip s := by
  by_cases hs : s < NDIRECT + 1
  · rw [slotVal, dif_pos hs, slotVal, dif_pos hs]
    by_cases hsk : s = k
    · simp_all
    · rw [if_neg hsk, Inode.setAddr_of_ne fun h => hsk (congrArg Fin.val h)]
  · have hsk : s ≠ k := by
      omega
    rw [if_neg hsk, slotVal, dif_neg hs, slotVal, dif_neg hs]
    by_cases hki : k = indSlot
    · -- the new indirect block is empty
      subst hki
      simp only [Inode.setAddr_self, hk, ne_eq, not_true_eq_false, and_false, if_false,
        indEntry_zero hzero, ite_self]
    · simp only [Inode.setAddr_of_ne (Ne.symm hki)]
      split
      · rename_i h
        rw [indEntry, hind h.2, indEntry]
      · rfl

/-- The slots after entry `j` of the indirect block got block `b`. -/
theorem slotVal_assign_entry {j : Nat} (hj : j < NINDIRECT) (hne : ip.addrs indSlot ≠ 0)
    (hb : b < 256 ^ 4)
    (hind : d' (ip.addrs indSlot) = (d (ip.addrs indSlot)).setWord 4 (4 * j) b) (s : Nat) :
    slotVal d' ip s = if s = NDIRECT + 1 + j then b else slotVal d ip s := by
  by_cases hs : s < NDIRECT + 1
  · rw [slotVal, dif_pos hs, slotVal, dif_pos hs, if_neg (by omega)]
  · rw [slotVal, dif_neg hs, slotVal, dif_neg hs]
    by_cases hs' : s < NDIRECT + 1 + NINDIRECT ∧ ip.addrs indSlot ≠ 0
    · have hsizes := fs_sizes
      simp only [if_pos hs', indEntry, hind]
      by_cases hsj : s = NDIRECT + 1 + j
      · rw [if_pos hsj, hsj, Nat.add_sub_cancel_left, ByteVec.word_setWord_self (by omega),
          Nat.mod_eq_of_lt hb]
      · rw [if_neg hsj, ByteVec.word_setWord_disjoint (by omega)]
    · grind

/-- The slots of an inode whose indirect block did not change. -/
theorem slots_other {ino' : Nat → Inode} (h : Owned sb d ino) {x : Nat × Nat}
    (hino : x.1 < sb.ninodes → ino' x.1 = ino x.1)
    (hblk : ∀ a, sb.Used d a → x.1 < sb.ninodes → (ino x.1).type ≠ 0 →
      (ino x.1).addrs indSlot = a → d' a = d a) :
    slots sb d' ino' x = slots sb d ino x := by
  unfold slots
  by_cases hx : x.1 < sb.ninodes
  · rw [hino hx]
    split
    · rename_i hxt
      congr 1
      exact slotVal_congr rfl fun hne => hblk _ (h.indBlock hx hxt.2 hne) hx hxt.2 rfl
    · rfl
  · grind

theorem Owned.assign_addr (h : Owned sb d ino) (ha : Allocated sb d d' b) (hi : i < sb.ninodes)
    (ht : (ino i).type ≠ 0) {k : Fin (NDIRECT + 1)} (hk : (ino i).addrs k = 0) :
    Owned sb d' (update ino i ((ino i).setAddr k b)) := by
  have hkeep : ∀ a, sb.Used d a → d' a = d a := fun a hu => by
    refine ha.frame a hu.1 ?_
    rintro rfl
    exact ha.not_used hu
  have hval := slotVal_assign_addr (d := d) hk ha.zero fun hne => hkeep _ (h.indBlock hi ht hne)
  refine ⟨h.exact.assign (i := (i, k.val)) (b := b) ?_ ha.not_used ?_ ?_ ha.used_iff,
    ha.metaUsed h.metaUsed⟩
  · rw [slots, if_pos ⟨hi, ht⟩, slotVal_direct, hk]
    rfl
  · rw [slots_eq_some, update_self]
    exact ⟨hi, ht, by rw [hval, if_pos rfl], ha.isData.ne_zero⟩
  · rintro ⟨j, s⟩ hne
    by_cases hj : j = i
    · unfold slots
      simp_all
    · exact slots_other h (fun _ => update_of_ne hj ..) fun a hu _ _ _ => hkeep a hu

theorem Owned.assign_entry (h : Owned sb d ino) (ha : Allocated sb d d' b) (hi : i < sb.ninodes)
    (ht : (ino i).type ≠ 0) (hne : (ino i).addrs indSlot ≠ 0) {j : Nat} (hj : j < NINDIRECT)
    (hzero : indEntry d ((ino i).addrs indSlot) j = 0) :
    Owned sb (update d' ((ino i).addrs indSlot)
      ((d' ((ino i).addrs indSlot)).setWord 4 (4 * j) b)) ino := by
  have hkeep : ∀ a, sb.Used d a → d' a = d a := fun a hu => by
    refine ha.frame a hu.1 ?_
    rintro rfl
    exact ha.not_used hu
  have hind := h.indBlock hi ht hne
  have hval : ∀ s, slotVal (update d' ((ino i).addrs indSlot)
      ((d' ((ino i).addrs indSlot)).setWord 4 (4 * j) b)) (ino i) s
      = if s = NDIRECT + 1 + j then b else slotVal d (ino i) s := by
    refine slotVal_assign_entry hj hne ha.isData.lt_word ?_
    rw [update_self, hkeep _ hind]
  refine ⟨h.exact.assign (i := (i, NDIRECT + 1 + j)) (b := b) ?_ ha.not_used ?_ ?_ ?_, ?_⟩
  · rw [slots, if_pos ⟨hi, ht⟩, slotVal_entry hj hne, hzero]
    rfl
  · rw [slots_eq_some]
    exact ⟨hi, ht, by rw [hval, if_pos rfl], ha.isData.ne_zero⟩
  · rintro ⟨l, s⟩ hls
    by_cases hl : l = i
    · subst hl
      have hs : s ≠ NDIRECT + 1 + j := fun hs => hls (by rw [hs])
      unfold slots
      simp only [hval, if_neg hs]
    · refine slots_other h (fun _ => rfl) fun a hu hl' htl hla => ?_
      rw [update_of_ne, hkeep a hu]
      -- another inode's indirect block is another block
      have hlk := h.ne_indBlock (s := NDIRECT) hi ht (slotVal_ind ▸ hne) hl' htl
        fun h => hl (Prod.mk.inj h).1
      rw [slotVal_ind, hla] at hlk
      exact hlk
  · exact fun c => (used_update_data hind.1).trans (ha.used_iff c)
  · exact metaUsed_update_data hind.1 (ha.metaUsed h.metaUsed)

end Assign

end Xv6
