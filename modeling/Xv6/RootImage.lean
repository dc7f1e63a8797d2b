import Xv6.DirMap

/-!
# An image of `mkfs`

The disk that `mkfs` makes of one empty file, with its usual layout: the
root directory has the entries `.` and `..` and the file's. It is a
consistent file system, and the root directory a map.
-/

namespace Xv6.Dir

open List

open ByteVec (Byte)

/-- The layout of `mkfs`. -/
def mkfsSuper : Superblock where
  size := 1000
  ninodes := 200
  nlog := 30
  logstart := 2
  inodestart := 32
  bmapstart := 45
  log_fit := by decide
  inodes_fit := by decide
  bitmap_fit := by decide
  size_lt := by decide

local instance (priority := 2000) neZero_addrs : NeZero (NDIRECT + 1) := ⟨by decide⟩

/-- The root directory in block 46. -/
def rootDir : Inode where
  type := FileType.dir.code
  major := 0
  minor := 0
  nlink := 1
  size := BSIZE
  addrs := fun k => if k = 0 then 46 else 0

def emptyFile : Inode where
  type := FileType.file.code
  major := 0
  minor := 0
  nlink := 1
  size := 0
  addrs := fun _ => 0

/-- The name of the file. -/
def fileName : List Byte := [0x66]

/-- What `mkfs` makes of one empty file: inode 1 is the root directory,
and inode 2 the file. -/
def rootImage : FsState where
  data := fun b =>
    if b = 32 then emptyFile.encode (rootDir.encode (ByteVec.fill BSIZE 0) 1) 2
    else if b = 45 then (ByteVec.fill BSIZE 0).patch 0 [0xff, 0xff, 0xff, 0xff, 0xff, 0x7f]
    else if b = 46 then
      (ByteVec.fill BSIZE 0).patch 0 (deBytes 1 dotName ++ deBytes 1 dotdotName ++ deBytes 2 fileName)
    else ByteVec.fill BSIZE 0
  logged := []

def rootSlots : List (Option (Name × Nat)) :=
  some (dotName, 1) :: some (dotdotName, 1) :: some (fileName, 2) :: replicate 61 none

theorem rootImage_slots : slotsOf mkfsSuper rootImage 1 = rootSlots := by decide +kernel

theorem rootImage_root : mkfsSuper.dinode rootImage.data 1 = rootDir := by
  have hother : mkfsSuper.dinode rootImage.data 1
      = Inode.decode (rootDir.encode (ByteVec.fill BSIZE 0) 1) 1 := Inode.decode_encode_other _ (by decide)
  rw [hother]
  exact Inode.decode_encode_self ⟨by decide, by decide, by decide, by decide, by decide, by decide⟩ _ (by decide)

theorem rootImage_file : mkfsSuper.dinode rootImage.data 2 = emptyFile :=
  Inode.decode_encode_self ⟨by decide, by decide, by decide, by decide, by decide, by decide⟩ _ (by decide)

theorem rootImage_free {i : Nat} (hi : i < mkfsSuper.ninodes) (h1 : i ≠ 1) (h2 : i ≠ 2) :
    (mkfsSuper.dinode rootImage.data i).type = 0 := by
  have hfree : ∀ i < 200, i = 1 ∨ i = 2 ∨ (mkfsSuper.dinode rootImage.data i).type = 0 := by decide +kernel
  rcases hfree i hi with rfl | rfl | h0
  · exact absurd rfl h1
  · exact absurd rfl h2
  · exact h0

theorem rootDir_slotVal (d : Disk) (s : Nat) : slotVal d rootDir s = if s = 0 then 46 else 0 := by
  unfold slotVal
  split
  · rename_i hs
    rcases eq_or_ne s 0 with rfl | h0
    · rfl
    · rw [if_neg h0]
      exact if_neg fun h => h0 (congrArg Fin.val h)
  · rename_i hs
    rw [if_neg fun h => h.2 rfl, if_neg (by omega)]

theorem emptyFile_slotVal (d : Disk) (s : Nat) : slotVal d emptyFile s = 0 := by
  unfold slotVal
  split
  · rfl
  · rw [if_neg fun hc => hc.2 rfl]

theorem rootImage_owned {x : Nat × Nat} {b : Nat} :
    slots mkfsSuper rootImage.data (mkfsSuper.dinode rootImage.data) x = some b ↔ x = (1, 0) ∧ b = 46 := by
  obtain ⟨i, s⟩ := x
  rw [slots_eq_some]
  constructor
  · rintro ⟨hi, ht, hval, hb⟩
    grind [rootImage_root, rootDir_slotVal, rootImage_file, emptyFile_slotVal, rootImage_free]
  · rintro ⟨hx, rfl⟩
    obtain ⟨rfl, rfl⟩ := Prod.mk.inj hx
    rw [rootImage_root, rootDir_slotVal]
    exact ⟨by decide, by decide, rfl, by decide⟩

theorem rootImage_bits : ∀ b < 1000, mkfsSuper.bit rootImage.data b = decide (b < 47) := by decide +kernel

theorem rootImage_consistent : Consistent mkfsSuper rootImage.data := by
  refine ⟨⟨⟨fun {x b} hx => ?_, fun {x y b} hx hy => ?_, fun {b} hb => ?_⟩, fun b hb => ?_⟩,
    fun i hi ht => ?_, fun i hi ht k hk => ?_⟩
  · obtain ⟨-, rfl⟩ := rootImage_owned.mp hx
    exact ⟨by decide, rootImage_bits 46 (by decide)⟩
  · rw [(rootImage_owned.mp hx).1, (rootImage_owned.mp hy).1]
  · have h1 : 46 ≤ b := hb.1.1
    have h2 := rootImage_bits b hb.1.2
    rw [hb.2] at h2
    have h3 := of_decide_eq_true h2.symm
    exact ⟨(1, 0), rootImage_owned.mpr ⟨rfl, by omega⟩⟩
  · have h1 : b < 46 := hb
    rw [rootImage_bits b (by omega)]
    exact decide_eq_true (by omega)
  · rcases eq_or_ne i 1 with rfl | h1
    · rw [rootImage_root]
      decide
    rcases eq_or_ne i 2 with rfl | h2
    · rw [rootImage_file]
      decide
    · exact absurd (rootImage_free hi h1 h2) ht
  · rcases eq_or_ne i 1 with rfl | h1
    · rw [rootImage_root] at hk ⊢
      have hk' : k < 1024 := hk
      have hdiv : k / BSIZE = 0 := Nat.div_eq_of_lt hk'
      rw [hdiv, rootDir_slotVal]
      decide
    rcases eq_or_ne i 2 with rfl | h2
    · rw [rootImage_file] at hk
      exact absurd hk (Nat.not_lt_zero k)
    · exact absurd (rootImage_free hi h1 h2) ht

theorem rootImage_isMap : IsMap mkfsSuper rootImage 1 := by
  refine ⟨⟨rootImage_consistent, by decide, by rw [rootImage_root]; rfl, by rw [rootImage_root]; rfl⟩, ?_⟩
  rw [rootImage_slots]
  -- each name stands in its own slot
  have hslot : ∀ {j : Nat} {key : Name} {v : Nat}, rootSlots[j]? = some (some (key, v)) →
      [dotName, dotdotName, fileName][j]? = some key := by
    intro j key v hj
    match j with
    | 0 | 1 | 2 =>
      obtain ⟨rfl, -⟩ := Prod.mk.inj (Option.some.inj (Option.some.inj hj))
      rfl
    | j + 3 =>
      have hmem : some (key, v) ∈ replicate 61 none := mem_of_getElem? (i := j) hj
      exact absurd (eq_of_mem_replicate hmem) nofun
  intro j k key v w hj hk
  obtain ⟨hlt, -⟩ := List.getElem?_eq_some_iff.mp (hslot hj)
  exact (getElem?_inj hlt (by decide)).mp ((hslot hj).trans (hslot hk).symm)

end Xv6.Dir
