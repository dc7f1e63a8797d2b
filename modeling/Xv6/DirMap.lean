import Xv6.SlotMap
import Xv6.NoHoles

/-!
# A directory is a finite map

The content of a directory, cut into entries of 16 bytes, is a list of
slots as in `SlotMap`. `dirlookup` searches it, `dirlink` enters a name in
the first empty slot, and the zeroed entry that `sys_unlink` writes
clears one. From an empty directory no name is ever in two slots, so that
the directory stands for a finite map from names to inode numbers.

`dirlink` of a new name panics if the directory has no empty slot and
cannot grow.
-/

namespace Xv6.Dir

open List Ends Nat

open ByteVec (Byte)
open SlotMap (put find free Unique Vacant)

/-! ## Slots -/

/-- The entries in a content, as bytes. -/
def windows (c : List Byte) : List (List Byte) :=
  (range (c.length / DESIZE)).map fun k => (c.drop (DESIZE * k)).take DESIZE

/-- An entry as a slot: a name and an inode number unless that is zero. -/
def slot (de : List Byte) : Option (Name × Nat) :=
  if (decode de).inum = 0 then none else some ((decode de).name, (decode de).inum)

def dirSlots (c : List Byte) : List (Option (Name × Nat)) := (windows c).map slot

/-- The slots of directory `i`. -/
def slotsOf (sb : Superblock) (st : FsState) (i : Nat) : List (Option (Name × Nat)) :=
  dirSlots (content sb st.data i)

section Windows

variable {c de : List Byte} {k : Nat}

@[simp] theorem length_windows (c : List Byte) : (windows c).length = c.length / DESIZE := by
  simp [windows]

@[simp] theorem length_dirSlots (c : List Byte) : (dirSlots c).length = c.length / DESIZE := by
  simp [dirSlots]

theorem getElem?_windows (c : List Byte) (k : Nat) :
    (windows c)[k]? = if k < c.length / DESIZE then some ((c.drop (DESIZE * k)).take DESIZE) else none := by
  unfold windows
  rcases lt_or_ge k (c.length / DESIZE) with h | h
  · grind
  · grind

theorem getElem?_splice {off : Nat} (hoff : off ≤ c.length) (j : Nat) :
    (splice c off de)[j]? = if off ≤ j ∧ j < off + de.length then de[j - off]? else (c)[j]? := by
  have hlen : (c.take off).length = off := by rw [length_take, min_eq_left hoff]
  unfold splice
  rcases lt_or_ge j off with hlt | hge
  · grind
  · rcases lt_or_ge j (off + de.length) with hin | hout
    · grind
    · rw [if_neg (by omega), getElem?_append_right (by rw [length_append, hlen]; exact hout),
        getElem?_drop, length_append, hlen]
      congr 1
      omega

theorem length_splice {off : Nat} (hoff : off ≤ c.length) :
    (splice c off de).length = max c.length (off + de.length) := by
  simp only [splice, length_append, length_take, length_drop]
  omega

/-- Writing an entry over another, or at the end. -/
theorem windows_splice (hc : c.length % DESIZE = 0) (hde : de.length = DESIZE)
    (hk : DESIZE * k ≤ c.length) :
    windows (splice c (DESIZE * k) de) = put (windows c) k de := by
  have hk' : 16 * k ≤ c.length := hk
  have hde' : de.length = 16 := hde
  have hlen : (splice c (DESIZE * k) de).length = max c.length (16 * k + 16) := by
    rw [length_splice hk, hde']
  refine ext_getElem? fun j => ?_
  rw [SlotMap.getElem?_put (by rw [length_windows]; show k ≤ c.length / 16; omega), getElem?_windows,
    getElem?_windows, hlen]
  have hwin : ((splice c (DESIZE * k) de).drop (DESIZE * j)).take DESIZE
      = if j = k then de else (c.drop (DESIZE * j)).take DESIZE := by
    refine ext_getElem? fun m => ?_
    rcases lt_or_ge m 16 with hm | hm
    · rw [getElem?_take_of_lt hm, getElem?_drop, getElem?_splice hk, hde']
      grind
    · grind
  rcases eq_or_ne j k with rfl | hne
  · grind
  · grind

theorem dirSlots_splice (hc : c.length % DESIZE = 0) (hde : de.length = DESIZE)
    (hk : DESIZE * k ≤ c.length) :
    dirSlots (splice c (DESIZE * k) de) = put (dirSlots c) k (slot de) := by
  rw [dirSlots, windows_splice hc hde hk, dirSlots]
  unfold put
  simp only [length_map]
  split <;> simp

end Windows

/-! ## Lookup -/

/-- A directory on a consistent file system, of whole entries. -/
structure IsDir (sb : Superblock) (st : FsState) (i : Nat) : Prop where
  consistent : Consistent sb st.data
  lt : i < sb.ninodes
  type : (sb.dinode st.data i).type = FileType.dir.code
  whole : (sb.dinode st.data i).size % DESIZE = 0

section Lookup

variable {sb : Superblock} {st st' : FsState} {i n k : Nat} {name de : List Byte}

theorem IsDir.type_ne (h : IsDir sb st i) : (sb.dinode st.data i).type ≠ 0 := by
  rw [h.type]
  decide

theorem IsDir.length_windows (h : IsDir sb st i) :
    DESIZE * (windows (content sb st.data i)).length = (sb.dinode st.data i).size := by
  rw [Dir.length_windows, content_length]
  exact Nat.mul_div_cancel' (Nat.dvd_of_mod_eq_zero h.whole)

/-- The loops over the entries: the first that is a hit, at its offset. -/
theorem IsDir.scanLoop_eq (h : IsDir sb st i) (short : DirPanic) (hit : List Byte → Bool) :
    ∀ {k}, k + n = (windows (content sb st.data i)).length →
      scanLoop sb short hit n (DESIZE * k) (sb.dinode st.data i) st
        = .ok ((DESIZE * (k + ((windows (content sb st.data i)).drop k).findIdx hit),
            ((windows (content sb st.data i)).drop k).find? hit), sb.dinode st.data i, st) := by
  have hsize : (sb.dinode st.data i).size ≤ 274432 := h.consistent.sized i h.lt h.type_ne
  have hlen : 16 * (windows (content sb st.data i)).length = (sb.dinode st.data i).size := h.length_windows
  induction n with
  | zero =>
    intro k hk
    rw [drop_eq_nil_of_le (by omega)]
    rfl
  | succ n ih =>
    intro k hk
    have hlt : k < (windows (content sb st.data i)).length := by omega
    have hwin : (windows (content sb st.data i)).get ⟨k, hlt⟩
        = ((content sb st.data i).drop (DESIZE * k)).take DESIZE := by
      refine Option.some.inj ((getElem?_eq_getElem hlt).symm.trans ?_)
      rw [getElem?_windows, if_pos (by rwa [Dir.length_windows] at hlt)]
    have hread := readDe_eq h.consistent h.lt h.type_ne short
      (show DESIZE * k + DESIZE < 2 ^ 32 by show 16 * k + 16 < 2 ^ 32; omega)
    rw [if_pos (show 16 * k + 16 ≤ _ by omega), ← hwin] at hread
    rw [scanLoop, hread, ok_bind, drop_eq_getElem_cons hlt, findIdx_cons, find?_cons]
    show (if hit ((windows (content sb st.data i)).get ⟨k, hlt⟩) = true then _ else _) = _
    cases hhit : hit ((windows (content sb st.data i)).get ⟨k, hlt⟩) with
    | true =>
      rfl
    | false =>
      grind

theorem IsDir.scan_eq (h : IsDir sb st i) (short : DirPanic) (hit : List Byte → Bool) :
    scan sb short hit 0 (sb.dinode st.data i) st
      = .ok ((DESIZE * (windows (content sb st.data i)).findIdx hit,
          (windows (content sb st.data i)).find? hit), sb.dinode st.data i, st) := by
  have hlen : 16 * (windows (content sb st.data i)).length = (sb.dinode st.data i).size := h.length_windows
  have hrounds : deRounds (sb.dinode st.data i).size 0 = (windows (content sb st.data i)).length := by
    show ((sb.dinode st.data i).size - 0 + 16 - 1) / 16 = _
    omega
  have hscan := h.scanLoop_eq short hit (zero_add _)
  rw [drop_zero, zero_add, mul_zero] at hscan
  rw [scan, hrounds, hscan]

theorem holds_slot (name de : List Byte) :
    SlotMap.holds (cname name) (slot de) = decide (deInum de ≠ 0 ∧ namecmp name (deName de) = 0) := by
  rw [slot]
  by_cases h0 : (decode de).inum = 0
  · rw [if_pos h0]
    exact (decide_eq_false fun hc => hc.1 h0).symm
  · rw [if_neg h0, SlotMap.holds, Option.any_some]
    exact decide_eq_decide.mpr ⟨fun hc => ⟨h0, namecmp_eq_zero.mpr hc.symm⟩,
      fun hc => (namecmp_eq_zero.mp hc.2).symm⟩

/-- `dirlookup` searches the slots. -/
theorem IsDir.dirlookup_eq (h : IsDir sb st i) (name : List Byte) :
    dirlookup sb st (sb.dinode st.data i) name
      = .ok ((find (slotsOf sb st i) (cname name)).map fun x => (DESIZE * x.1, x.2),
        sb.dinode st.data i, st) := by
  have hhit : (fun de => decide (deInum de ≠ 0 ∧ namecmp name (deName de) = 0))
      = SlotMap.holds (cname name) ∘ slot := funext fun de => (holds_slot name de).symm
  rw [dirlookup, if_neg (not_not.mpr h.type), h.scan_eq, ok_bind, hhit, ← findIdx_map,
    find?_eq_getElem?_findIdx, ← findIdx_map]
  have hget (k : Nat) : (slotsOf sb st i)[k]? = ((windows (content sb st.data i))[k]?).map slot := by
    rw [slotsOf, dirSlots, getElem?_map]
  change Except.ok (((windows (content sb st.data i))[(slotsOf sb st i).findIdx _]?).map
    fun de => (DESIZE * (slotsOf sb st i).findIdx _, deInum de), _, _) = _
  rcases SlotMap.findIdx_holds (slotsOf sb st i) (cname name) with ⟨v, hv⟩ | ⟨hnone, -⟩
  · have hw := hv
    rw [hget, Option.map_eq_some_iff] at hw
    obtain ⟨de, hde, hslot⟩ := hw
    rw [find, hv, hde]
    rw [slot] at hslot
    split at hslot
    · cases hslot
    · obtain ⟨-, rfl⟩ := Prod.mk.inj (Option.some.inj hslot)
      rfl
  · have hw := hnone
    rw [hget, Option.map_eq_none_iff] at hw
    rw [find, hnone, hw]
    rfl

end Lookup

/-! ## Writing an entry -/

/-- Slot `k` is within the maximal size of a file, and there are blocks
for it. -/
def SlotFits (sb : Superblock) (st : FsState) (i k : Nat) : Prop :=
  DESIZE * k + DESIZE ≤ MAXFILE * BSIZE
    ∧ writeNeed st.data (sb.dinode st.data i) (DESIZE * k) (DESIZE * k + DESIZE)
      ≤ (sb.freeBlocks st.data).card

/-- Slot `k` of directory `i` was written, and nothing else but for the
blocks it took. -/
structure SlotWritten (sb : Superblock) (st : FsState) (i k : Nat) (s : Option (Name × Nat))
    (st' : FsState) : Prop where
  dir : IsDir sb st' i
  slots : slotsOf sb st' i = put (slotsOf sb st i) k s
  touches : Touches sb st i st'
  nlink : (sb.dinode st'.data i).nlink = (sb.dinode st.data i).nlink
  free : (sb.freeBlocks st'.data).card
      + writeNeed st.data (sb.dinode st.data i) (DESIZE * k) (DESIZE * k + DESIZE)
    = (sb.freeBlocks st.data).card

section Write

variable {sb : Superblock} {st st' : FsState} {i k inum : Nat} {name de : List Byte}

theorem bytes_getElem? (de : List Byte) : Source.bytes (fun j => de[j]?) de.length = de := by
  refine ext_getElem (by simp [Source.bytes]) fun j h₁ h₂ => ?_
  simp [Source.bytes, getElem?_eq_getElem h₂]

theorem freeBlocks_congr {d d' : Disk} (h : ∀ c, sb.bit d' c = sb.bit d c) :
    sb.freeBlocks d' = sb.freeBlocks d := by
  ext c
  rw [Superblock.mem_freeBlocks, Superblock.mem_freeBlocks, h]

theorem not_refused (hk : DESIZE * k ≤ (sb.dinode st.data i).size)
    (hmax : DESIZE * k + DESIZE ≤ MAXFILE * BSIZE) :
    ¬writeRefused (sb.dinode st.data i) (DESIZE * k) DESIZE := by
  rintro (hc | hc | hc)
  · exact absurd hk (not_le.mpr hc)
  · grind
  · exact absurd hmax (not_le.mpr hc)

/-- An entry that fits is written whole. -/
theorem IsDir.writeDe_fits (h : IsDir sb st i) (hde : de.length = DESIZE)
    (hk : DESIZE * k ≤ (sb.dinode st.data i).size) (hfit : SlotFits sb st i k) :
    ∃ st', writeDe sb st i (sb.dinode st.data i) de (DESIZE * k) = .ok (DESIZE, sb.dinode st'.data i, st')
      ∧ SlotWritten sb st i k (slot de) st' := by
  have hr := not_refused hk hfit.1
  rcases (h.consistent.owned.locked h.lt h.type_ne).writei_accepted (fun j => de[j]?)
    (sb.dinode_fits st.data i) (show DESIZE < 2 ^ 32 by decide) hr with
    ⟨tot, ip', st', d₁, ip₁, hw, hspec⟩ | ⟨-, hfull⟩
  · obtain rfl := hspec.wrote.done fun j _ hj => by grind
    have hcontent := hspec.content_eq hr
    rw [← hde, bytes_getElem?, hde] at hcontent
    have hstep := step_writei h.consistent h.lt h.type_ne
      (show DESIZE * k < 2 ^ 32 by have := hfit.1; have : 16 * k + 16 ≤ 274432 := this; show 16 * k < _; omega)
      (by decide) hw
    have hlen : (content sb st.data i).length % DESIZE = 0 := by
      rw [content_length]
      exact h.whole
    have hlen' : DESIZE * k ≤ (content sb st.data i).length := by
      rwa [content_length]
    refine ⟨st', ?_, ⟨⟨hstep.consistent, h.lt, ?_, ?_⟩, ?_, hstep.toTouches, ?_, ?_⟩⟩
    · rw [writeDe, hw, ← hstep.inode]
      rfl
    · rw [← hstep.inode, hstep.type, h.type]
    · rw [← content_length, hcontent, length_splice hlen', hde]
      grind
    · rw [slotsOf, hcontent, dirSlots_splice hlen hde hlen', slotsOf]
    · rw [← hstep.inode, hspec.fields]
      rw [hspec.wrote.grows.fields]
    · rw [freeBlocks_congr hspec.updated.bits]
      exact hspec.wrote.free rfl
  · exact absurd hfit.2 (not_le.mpr hfull)

/-- One that does not fit is refused or ends in a panic. -/
theorem IsDir.writeDe_full (h : IsDir sb st i) (hde : de.length = DESIZE)
    (hk : DESIZE * k ≤ (sb.dinode st.data i).size) (hfull : ¬SlotFits sb st i k) :
    writeDe sb st i (sb.dinode st.data i) de (DESIZE * k) = .ok (-1, sb.dinode st.data i, st)
      ∨ writeDe sb st i (sb.dinode st.data i) de (DESIZE * k) = .error (.fs .outOfBlocks) := by
  have hsize : (sb.dinode st.data i).size ≤ 274432 := h.consistent.sized i h.lt h.type_ne
  have hk' : 16 * k ≤ (sb.dinode st.data i).size := hk
  by_cases hmax : DESIZE * k + DESIZE ≤ MAXFILE * BSIZE
  · have hr := not_refused hk hmax
    rcases (h.consistent.owned.locked h.lt h.type_ne).writei_accepted (fun j => de[j]?)
      (sb.dinode_fits st.data i) (show DESIZE < 2 ^ 32 by decide) hr with
      ⟨tot, ip', st', d₁, ip₁, hw, hspec⟩ | ⟨herr, -⟩
    · obtain rfl := hspec.wrote.done fun j _ hj => by grind
      have hfree := hspec.wrote.free rfl
      exact absurd ⟨hmax, le.intro ((add_comm ..).trans hfree)⟩ hfull
    · refine .inr ?_
      rw [writeDe, herr]
      rfl
  · refine .inl ?_
    rw [writeDe, writei_refused (show 16 * k < 2 ^ 32 by omega) (by decide) (.inr (.inr (not_le.mp hmax)))]
    rfl

theorem IsDir.length_slots (h : IsDir sb st i) :
    DESIZE * (slotsOf sb st i).length = (sb.dinode st.data i).size := by
  rw [slotsOf, length_dirSlots, content_length]
  exact Nat.mul_div_cancel' (Nat.dvd_of_mod_eq_zero h.whole)

/-- Behind the direct blocks a mapped block has an indirect one. -/
theorem indSlot_ne_zero {d : Disk} {ip : Inode} {bn : Nat} (hbn : NDIRECT ≤ bn)
    (hne : slotVal d ip (slotOf bn) ≠ 0) : ip.addrs indSlot ≠ 0 := by
  intro h0
  refine hne ?_
  rw [slotOf, if_neg (not_lt.mpr hbn), slotVal, dif_neg (by omega), if_neg fun hc => hc.2 h0]

/-- A slot that is there fits. -/
theorem IsDir.slotFits (h : IsDir sb st i) (hk : k < (slotsOf sb st i).length) : SlotFits sb st i k := by
  have hsize : (sb.dinode st.data i).size ≤ 274432 := h.consistent.sized i h.lt h.type_ne
  have hlen : 16 * (slotsOf sb st i).length = (sb.dinode st.data i).size := h.length_slots
  have hmapped := h.consistent.mapped i h.lt h.type_ne (16 * k) (by omega)
  refine ⟨show 16 * k + 16 ≤ 274432 by omega, ?_⟩
  have hneed : writeNeed st.data (sb.dinode st.data i) (16 * k) (16 * k + 16) = 0 := by
    have hblk : (16 * k + 16 - 1) / BSIZE + 1 = 16 * k / BSIZE + 1 := by grind
    rw [writeNeed, if_pos (by omega), hblk, blocksNeeded, Nat.add_sub_cancel_left, if_neg]
    · simp [hmapped]
    · grind [indSlot_ne_zero, le_of_lt_succ]
  exact hneed.symm ▸ zero_le _

/-! ## `dirlink` -/

/-- A new entry has a slot: an empty one, or one at the end. -/
def Room (sb : Superblock) (st : FsState) (i : Nat) : Prop :=
  (∃ k : Nat, (slotsOf sb st i)[k]? = some none)
    ∨ (sb.dinode st.data i).size + DESIZE ≤ MAXFILE * BSIZE
      ∧ writeNeed st.data (sb.dinode st.data i) (sb.dinode st.data i).size
          ((sb.dinode st.data i).size + DESIZE) ≤ (sb.freeBlocks st.data).card

theorem IsDir.slotFits_free (h : IsDir sb st i) :
    SlotFits sb st i (free (slotsOf sb st i)) ↔ Room sb st i := by
  rcases lt_or_ge (free (slotsOf sb st i)) (slotsOf sb st i).length with hlt | hge
  · exact iff_of_true (h.slotFits hlt) (.inl (SlotMap.free_lt_iff.mp hlt))
  · have hfree : free (slotsOf sb st i) = (slotsOf sb st i).length :=
      le_antisymm findIdx_le_length hge
    have hno : ¬∃ k : Nat, (slotsOf sb st i)[k]? = some none := fun hc =>
      not_lt.mpr hge (SlotMap.free_lt_iff.mpr hc)
    rw [SlotFits, hfree, h.length_slots]
    exact (or_iff_right hno).symm

theorem slot_deBytes (inum : Nat) (name : List Byte) :
    slot (deBytes inum name) = if inum % 2 ^ 16 = 0 then none else some (cname name, inum % 2 ^ 16) := by
  rw [slot, decode_deBytes]

theorem slot_zero : slot (List.replicate DESIZE 0) = none := by
  rfl

theorem IsDir.dirlink_present (h : IsDir sb st i) {x : Nat × Nat}
    (hx : find (slotsOf sb st i) (cname name) = some x) :
    dirlink sb st i (sb.dinode st.data i) name inum = .ok (false, sb.dinode st.data i, st) := by
  rw [dirlink, h.dirlookup_eq, hx]
  rfl

theorem IsDir.dirlink_absent (h : IsDir sb st i) (hnone : find (slotsOf sb st i) (cname name) = none) :
    dirlink sb st i (sb.dinode st.data i) name inum
      = (do
        let (r, ip, st) ← writeDe sb st i (sb.dinode st.data i) (deBytes inum name)
          (DESIZE * free (slotsOf sb st i))
        if r ≠ DESIZE then .error .link else .ok (true, ip, st)) := by
  have hhit : (fun de => decide (deInum de = 0)) = Option.isNone ∘ slot := by
    refine funext fun de => ?_
    rw [Function.comp_apply, slot]
    by_cases h0 : (decode de).inum = 0
    · rw [if_pos h0]
      exact decide_eq_true h0
    · rw [if_neg h0]
      exact decide_eq_false h0
  rw [dirlink, h.dirlookup_eq, hnone, ok_bind]
  show (scan _ _ _ 0 _ _ >>= _) = _
  rw [h.scan_eq, ok_bind, hhit, ← findIdx_map]
  rfl

theorem IsDir.free_le (h : IsDir sb st i) :
    DESIZE * free (slotsOf sb st i) ≤ (sb.dinode st.data i).size := by
  rw [← h.length_slots]
  exact mul_le_mul_left _ findIdx_le_length

/-- A new name is entered in the first empty slot. -/
theorem IsDir.dirlink_room (h : IsDir sb st i) (hnone : find (slotsOf sb st i) (cname name) = none)
    (hroom : Room sb st i) (inum : Nat) :
    ∃ st', dirlink sb st i (sb.dinode st.data i) name inum = .ok (true, sb.dinode st'.data i, st')
      ∧ SlotWritten sb st i (free (slotsOf sb st i)) (slot (deBytes inum name)) st' := by
  obtain ⟨st', hw, hwritten⟩ :=
    h.writeDe_fits (deBytes_length inum name) h.free_le (h.slotFits_free.mpr hroom)
  refine ⟨st', ?_, hwritten⟩
  rw [h.dirlink_absent hnone, hw]
  rfl

theorem IsDir.dirlink_no_room (h : IsDir sb st i) (hnone : find (slotsOf sb st i) (cname name) = none)
    (hroom : ¬Room sb st i) (inum : Nat) : ∃ e, dirlink sb st i (sb.dinode st.data i) name inum = .error e := by
  rw [h.dirlink_absent hnone]
  rcases h.writeDe_full (deBytes_length inum name) h.free_le (mt h.slotFits_free.mp hroom) with hw | hw
  · rw [hw]
    exact ⟨.link, rfl⟩
  · rw [hw]
    exact ⟨_, rfl⟩

end Write

/-! ## Histories -/

/-- What happens to directory `i`: a `dirlink`, the zeroed entry of
`sys_unlink` over one that was found, and what leaves its content
alone. -/
inductive DirStep (sb : Superblock) (i : Nat) : FsState → FsState → Prop where
  | dirlink {st st' : FsState} {name : List Byte} {inum : Nat} {ok : Bool} {ip' : Inode}
      (hlink : dirlink sb st i (sb.dinode st.data i) name inum = .ok (ok, ip', st')) : DirStep sb i st st'
  | clear {st st₁ st' : FsState} {name : List Byte} {off inum : Nat} {r : Int} {ip ip' : Inode}
      (hfound : dirlookup sb st (sb.dinode st.data i) name = .ok (some (off, inum), ip, st₁))
      (hw : writeDe sb st₁ i ip (replicate DESIZE 0) off = .ok (r, ip', st')) : DirStep sb i st st'
  | other {st st' : FsState} (hcon : Consistent sb st'.data)
      (htype : (sb.dinode st'.data i).type = (sb.dinode st.data i).type)
      (hsame : content sb st'.data i = content sb st.data i) : DirStep sb i st st'

/-- The directory stands for a finite map. -/
structure IsMap (sb : Superblock) (st : FsState) (i : Nat) : Prop extends IsDir sb st i where
  unique : Unique (slotsOf sb st i)

section History

variable {sb : Superblock} {st st' : FsState} {i inum off : Nat} {name : List Byte}

/-- An empty directory, as `create` has it before `.` and `..`. -/
theorem isMap_empty (h : Consistent sb st.data) (hi : i < sb.ninodes)
    (ht : (sb.dinode st.data i).type = FileType.dir.code) (hsize : (sb.dinode st.data i).size = 0) :
    IsMap sb st i := by
  have hnil : slotsOf sb st i = [] := by
    rw [← length_eq_zero_iff, slotsOf, length_dirSlots, content_length, hsize]
    rfl
  refine ⟨⟨h, hi, ht, by rw [hsize]; rfl⟩, fun j k key v w hj _ => ?_⟩
  rw [hnil] at hj
  cases hj

theorem IsMap.link (h : IsMap sb st i) (hnone : find (slotsOf sb st i) (cname name) = none)
    (hw : SlotWritten sb st i (free (slotsOf sb st i)) (slot (deBytes inum name)) st') :
    IsMap sb st' i := by
  refine ⟨hw.dir, ?_⟩
  rw [hw.slots, slot_deBytes]
  split
  · exact h.unique.clear findIdx_le_length
  · exact h.unique.enter (SlotMap.vacant_free _) hnone _

/-- What was found is in a slot, and the slot is cleared. -/
theorem IsMap.clear (h : IsMap sb st i) {k : Nat}
    (hk : find (slotsOf sb st i) (cname name) = some (k, inum)) :
    ∃ st', writeDe sb st i (sb.dinode st.data i) (replicate DESIZE 0) (DESIZE * k)
        = .ok (DESIZE, sb.dinode st'.data i, st')
      ∧ IsMap sb st' i ∧ SlotWritten sb st i k none st' := by
  have hlt : k < (slotsOf sb st i).length :=
    (List.getElem?_eq_some_iff.mp (SlotMap.find_some hk)).1
  have hle : DESIZE * k ≤ (sb.dinode st.data i).size := by
    rw [← h.length_slots]
    exact mul_le_mul_left _ hlt.le
  obtain ⟨st', hw, hwritten⟩ :=
    h.writeDe_fits length_replicate hle (h.slotFits hlt)
  refine ⟨st', hw, ⟨hwritten.dir, ?_⟩, hwritten⟩
  rw [hwritten.slots]
  exact h.unique.clear hlt.le

theorem dirlookup_found (h : IsDir sb st i) {ip : Inode} {st₁ : FsState}
    (hf : dirlookup sb st (sb.dinode st.data i) name = .ok (some (off, inum), ip, st₁)) :
    ∃ k, off = DESIZE * k ∧ find (slotsOf sb st i) (cname name) = some (k, inum)
      ∧ ip = sb.dinode st.data i ∧ st₁ = st := by
  rw [h.dirlookup_eq] at hf
  simp only [Except.ok.injEq, Prod.mk.injEq, Option.map_eq_some_iff] at hf
  obtain ⟨⟨⟨k, v⟩, hk, hoff, hv⟩, hip, hst⟩ := hf
  exact ⟨k, hoff.symm, hv ▸ hk, hip.symm, hst.symm⟩

theorem DirStep.isMap (hs : DirStep sb i st st') (h : IsMap sb st i) : IsMap sb st' i := by
  cases hs with
  | @dirlink _ name inum ok ip' hlink =>
    cases hfind : find (slotsOf sb st i) (cname name) with
    | some x =>
      simp_all [h.dirlink_present hfind]
    | none =>
      by_cases hroom : Room sb st i
      · obtain ⟨st₁, hrun, hw⟩ := h.dirlink_room hfind hroom inum
        simp only [hrun, Except.ok.injEq, Prod.mk.injEq] at hlink
        obtain ⟨-, -, rfl⟩ := hlink
        exact h.link hfind hw
      · obtain ⟨e, he⟩ := h.dirlink_no_room hfind hroom inum
        rw [he] at hlink
        cases hlink
  | clear hfound hw =>
    obtain ⟨k, rfl, hk, rfl, rfl⟩ := dirlookup_found h.toIsDir hfound
    obtain ⟨st₁, hrun, hmap, -⟩ := h.clear hk
    grind
  | other hcon htype hsame =>
    refine ⟨⟨hcon, h.lt, htype.trans h.type, ?_⟩, ?_⟩
    · rw [← content_length, hsame, content_length]
      exact h.whole
    · rw [slotsOf, hsame]
      exact h.unique

end History

/-! ## The map -/

section Map

variable {sb : Superblock} {st st₀ : FsState} {i : Nat} {name : List Byte}

/-- A `dirlink` that returns 0 has entered the name. -/
theorem IsMap.dirlink_true (h : IsMap sb st i) {inum : Nat} {ip' : Inode} {st' : FsState}
    (hlink : dirlink sb st i (sb.dinode st.data i) name inum = .ok (true, ip', st')) :
    find (slotsOf sb st i) (cname name) = none ∧ Room sb st i ∧ IsMap sb st' i
      ∧ SlotWritten sb st i (free (slotsOf sb st i)) (slot (deBytes inum name)) st' := by
  cases hfind : find (slotsOf sb st i) (cname name) with
  | some x =>
    rw [h.dirlink_present hfind] at hlink
    cases hlink
  | none =>
    by_cases hroom : Room sb st i
    · obtain ⟨st₁, hrun, hw⟩ := h.dirlink_room hfind hroom inum
      simp only [hrun, Except.ok.injEq, Prod.mk.injEq] at hlink
      obtain ⟨-, -, rfl⟩ := hlink
      exact ⟨rfl, hroom, h.link hfind hw, hw⟩
    · obtain ⟨e, he⟩ := h.dirlink_no_room hfind hroom inum
      rw [he] at hlink
      cases hlink

end Map

/-! ## A directory that fills the disk -/

section Fill

variable {st : FsState} {n : Nat}

theorem IsDir.size_of_length (h : IsDir fullSuper st 1) (hn : (slotsOf fullSuper st 1).length = n) :
    (fullSuper.dinode st.data 1).size = 16 * n := by
  rw [← h.length_slots, hn]

/-- There is room up to 64 entries. -/
theorem IsDir.room (h : IsDir fullSuper st 1) (hn : (slotsOf fullSuper st 1).length = n)
    (hlt : n < 64) (hfive : n = 0 → 0 < (fullSuper.freeBlocks st.data).card) : Room fullSuper st 1 := by
  have hsize := h.size_of_length hn
  refine .inr ⟨?_, ?_⟩
  · grind
  · have hhi : (16 * n + DESIZE - 1) / BSIZE + 1 = 1 := by grind
    have hlo : 16 * n / BSIZE = 0 := by
      show 16 * n / 1024 = 0
      omega
    have hind : ¬(0 < 1 ∧ NDIRECT < 1 ∧ (fullSuper.dinode st.data 1).addrs indSlot = 0) :=
      fun hc => absurd hc.2.1 (by decide)
    rw [hsize, writeNeed, if_pos (Nat.lt_add_of_pos_right (by decide)), hhi, hlo, blocksNeeded, if_neg hind]
    by_cases h0 : n = 0
    · grind
    · have hmapped := h.consistent.mapped 1 h.lt h.type_ne 0 (by omega)
      grind

end Fill

end Xv6.Dir
