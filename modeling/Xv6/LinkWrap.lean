import Xv6.LinkCount
import Xv6.RootImage

/-!
# A count that wraps

A directory of 268 blocks holds 17152 entries, and two of them fit on the
disk `mkfs` lays out. So one file can get 32768 names: the last call of
`sys_link` succeeds, the count is then -32768, and `sys_unlink` of any of
the names panics.

The calls are too many to be evaluated. Each is taken by `dirlink_room`,
and `Fill` says what the two directories and the count are in between.
-/

namespace Xv6.Dir

open List Ends Nat

open ByteVec (Byte)
open StepSystem
open SlotMap (put find free)

section Grow

variable {sb : Superblock} {st st' : FsState} {i j k n inum : Nat} {name : List Byte}
  {L : List (Option (Name × Nat))}

/-! ## The blocks an entry takes -/

/-- An entry lies in one block. -/
theorem writeNeed_entry (d : Disk) (ip : Inode) (k : Nat) :
    writeNeed d ip (DESIZE * k) (DESIZE * k + DESIZE)
      = (if slotVal d ip (slotOf (k / 64)) = 0 then 1 else 0)
        + if NDIRECT ≤ k / 64 ∧ ip.addrs indSlot = 0 then 1 else 0 := by
  have hlo : DESIZE * k / BSIZE = k / 64 := by
    show 16 * k / 1024 = k / 64
    omega
  have hhi : (DESIZE * k + DESIZE - 1) / BSIZE + 1 = k / 64 + 1 := by grind
  rw [writeNeed, if_pos (Nat.lt_add_of_pos_right (by decide)), hlo, hhi, blocksNeeded, Nat.add_sub_cancel_left]
  simp [range'_one, Nat.lt_succ_iff]

/-- The blocks of a directory with `n` entries, the indirect block
included. -/
def dirBlocks (n : Nat) : Nat := (n + 63) / 64 + if 768 < n then 1 else 0

/-- The next entry takes a block if the last one is full, and at first
use the indirect block. -/
theorem IsDir.need_append (h : IsDir sb st i) (hn : (slotsOf sb st i).length = n) :
    writeNeed st.data (sb.dinode st.data i) (DESIZE * n) (DESIZE * n + DESIZE) + dirBlocks n
      ≤ dirBlocks (n + 1) := by
  have hsize : (sb.dinode st.data i).size = 16 * n := by rw [← h.length_slots, hn]
  have hmapped : ∀ bn, 64 * bn < n → slotVal st.data (sb.dinode st.data i) (slotOf bn) ≠ 0 := by
    intro bn hlt
    have hm := h.consistent.mapped i h.lt h.type_ne (1024 * bn) (by omega)
    rwa [show BSIZE = 1024 from rfl, Nat.mul_div_cancel_left _ (by decide)] at hm
  have hind : 768 < n → (sb.dinode st.data i).addrs indSlot ≠ 0 := fun hlt =>
    indSlot_ne_zero (le_refl 12) (hmapped 12 hlt)
  rw [writeNeed_entry, dirBlocks, dirBlocks]
  have hblock : (if slotVal st.data (sb.dinode st.data i) (slotOf (n / 64)) = 0 then 1 else 0)
      ≤ (n + 1 + 63) / 64 - (n + 63) / 64 := by
    split
    · grind
    · exact zero_le _
  have hindirect : (if NDIRECT ≤ n / 64 ∧ (sb.dinode st.data i).addrs indSlot = 0 then 1 else 0)
      + (if 768 < n then 1 else 0) ≤ if 768 < n + 1 then 1 else 0 := by
    by_cases hlt : 768 < n
    · grind
    · grind
  omega

/-! ## Directories with known slots -/

/-- Directory `i` is a map with these slots. -/
structure DirIs (sb : Superblock) (st : FsState) (i : Nat) (L : List (Option (Name × Nat))) : Prop
    extends IsMap sb st i where
  slots : slotsOf sb st i = L

theorem DirIs.touch (h : DirIs sb st j L) (ht : Touches sb st i st') (hne : j ≠ i) : DirIs sb st' j L := by
  have htype := h.type
  rw [← ht.others j h.lt hne] at htype
  refine ⟨ht.isMap h.lt hne (fun _ => h.toIsMap) htype, ?_⟩
  rw [slotsOf, ht.contents j h.lt hne h.type_ne]
  exact h.slots

/-- A change of link counts takes no block. -/
theorem freeBlocks_addLinks (st : FsState) (hi : i < sb.ninodes) (delta : Int) :
    sb.freeBlocks (iupdate sb st i (addLinks (sb.dinode st.data i) delta)).data = sb.freeBlocks st.data :=
  Superblock.freeBlocks_congr fun c _ =>
    (iupdate_spec (addLinks_fits (sb.dinode_fits st.data i) delta) hi).bits c

theorem DirIs.relinked (h : DirIs sb st i L) (delta : Int) :
    DirIs sb (iupdate sb st i (addLinks (sb.dinode st.data i) delta)) i L := by
  have hstep := step_addLinks h.consistent h.lt h.type_ne delta
  have hcontent := content_addLinks h.consistent h.lt h.type_ne delta
  refine ⟨(DirStep.other hstep.consistent (hstep.inode ▸ hstep.type) hcontent).isMap h.toIsMap, ?_⟩
  rw [slotsOf, hcontent]
  exact h.slots

/-- A new entry for which there is room. -/
theorem DirIs.enter (h : DirIs sb st i L) (hfind : find L (cname name) = none) (hroom : Room sb st i)
    (inum : Nat) :
    ∃ st', dirlink sb st i (sb.dinode st.data i) name inum = .ok (true, sb.dinode st'.data i, st')
      ∧ DirIs sb st' i (put L (free L) (slot (deBytes inum name)))
      ∧ SlotWritten sb st i (free L) (slot (deBytes inum name)) st' := by
  obtain ⟨st', hlink, hw⟩ := h.dirlink_room (h.slots ▸ hfind) hroom inum
  have hmap := h.link (h.slots ▸ hfind) hw
  rw [h.slots] at hw
  exact ⟨st', hlink, ⟨hmap, by rw [hw.slots, h.slots]⟩, hw⟩

theorem free_of_full (hfull : none ∉ L) : free L = L.length := by
  refine Nat.le_antisymm findIdx_le_length (Nat.le_of_not_lt fun hlt => ?_)
  obtain ⟨k, hk⟩ := SlotMap.free_lt_iff.mp hlt
  exact hfull (mem_of_getElem? hk)

theorem put_of_full (hfull : none ∉ L) (s : Option (Name × Nat)) : put L (free L) s = L ++ [s] := by
  simp [put, free_of_full hfull]

/-- A directory without empty slots grows by an entry. -/
theorem DirIs.append (h : DirIs sb st i L) (name : List Byte) (hfull : none ∉ L)
    (hfind : find L (cname name) = none) (hlen : L.length < 17152)
    (hfree : dirBlocks (L.length + 1) ≤ (sb.freeBlocks st.data).card + dirBlocks L.length) (inum : Nat) :
    ∃ st', dirlink sb st i (sb.dinode st.data i) name inum = .ok (true, sb.dinode st'.data i, st')
      ∧ DirIs sb st' i (L ++ [slot (deBytes inum name)])
      ∧ SlotWritten sb st i L.length (slot (deBytes inum name)) st'
      ∧ (sb.freeBlocks st.data).card + dirBlocks L.length
        ≤ (sb.freeBlocks st'.data).card + dirBlocks (L.length + 1) := by
  have hneed := h.need_append (congrArg length h.slots)
  have hsize : (sb.dinode st.data i).size = DESIZE * L.length := by rw [← h.length_slots, h.slots]
  have hroom : Room sb st i := by
    refine .inr ⟨?_, ?_⟩
    · grind
    · rw [hsize]
      omega
  obtain ⟨st', hlink, hdir, hw⟩ := h.enter hfind hroom inum
  rw [put_of_full hfull] at hdir
  rw [free_of_full hfull] at hw
  have hcard := hw.free
  exact ⟨st', hlink, hdir, hw, by omega⟩

/-! ## A new name for a file -/

theorem ilock_dinode (ht : (sb.dinode st.data i).type ≠ 0) : ilock sb st i = .ok (sb.dinode st.data i) := by
  rw [ilock, if_neg ht]

theorem DirIs.linked {f : Nat} (h : DirIs sb st i L) (name : List Byte) (hf : f < sb.ninodes)
    (hfile : (sb.dinode st.data f).type = FileType.file.code) (hfull : none ∉ L)
    (hfind : find L (cname name) = none) (hlen : L.length < 17152)
    (hfree : dirBlocks (L.length + 1) ≤ (sb.freeBlocks st.data).card + dirBlocks L.length) :
    ∃ st', link sb st f (some i) name = .ok (true, st')
      ∧ DirIs sb st' i (L ++ [slot (deBytes f name)])
      ∧ sb.dinode st'.data f = addLinks (sb.dinode st.data f) 1
      ∧ (∀ j M, j ≠ i → DirIs sb st j M → DirIs sb st' j M)
      ∧ (sb.freeBlocks st.data).card + dirBlocks L.length
        ≤ (sb.freeBlocks st'.data).card + dirBlocks (L.length + 1) := by
  have hft : (sb.dinode st.data f).type ≠ 0 := by
    rw [hfile]
    decide
  have hnotDir : ∀ {j M}, DirIs sb st j M → j ≠ f := by
    rintro j M hj rfl
    exact absurd (hfile.symm.trans hj.type) (by decide)
  have hstep := step_addLinks h.consistent hf hft 1
  have hcard := freeBlocks_addLinks st hf 1
  have hl := ilock_dinode hft
  unfold link
  rw [hl]
  simp only [Except.mapError, ok_bind]
  rw [if_neg (by rw [hfile]; decide)]
  generalize iupdate sb st f (addLinks (sb.dinode st.data f) 1) = st₁ at hstep hcard ⊢
  have h₁ := h.touch hstep.toTouches (hnotDir h)
  rw [← hcard] at hfree ⊢
  obtain ⟨st', hlink, hdir, hw, hcard'⟩ := h₁.append name hfull hfind hlen hfree f
  rw [ilock_dinode h₁.type_ne]
  simp only [ok_bind, hlink, if_true]
  refine ⟨st', rfl, hdir, ?_, fun j M hj hdj => ?_, hcard'⟩
  · rw [hw.touches.others f hf (hnotDir h).symm, hstep.inode]
  · exact (hdj.touch hstep.toTouches (hnotDir hdj)).touch hw.touches hj

/-! ## A new directory -/

theorem slot_deBytes_lt (hpos : 0 < inum) (hlt : inum < 2 ^ 16) :
    slot (deBytes inum name) = some (cname name, inum) := by
  rw [slot_deBytes, mod_eq_of_lt hlt, if_neg hpos.ne']

/-- The entries of a directory that is made. -/
theorem createDots_room {dp : Nat} (h : DirIs sb st i []) (hdp : DirIs sb st dp L) (hne : i ≠ dp)
    (hpos : 0 < i ∧ 0 < dp) (hfits : sb.ninodes ≤ 2 ^ 16) (hfree : 0 < (sb.freeBlocks st.data).card) :
    ∃ st', createDots sb st dp (sb.dinode st.data dp) i (sb.dinode st.data i)
        = .ok (sb.dinode st'.data dp, sb.dinode st'.data i, st')
      ∧ DirIs sb st' i [some (dotName, i), some (dotdotName, dp)] ∧ DirIs sb st' dp L
      ∧ (∀ j < sb.ninodes, j ≠ i → j ≠ dp → sb.dinode st'.data j = sb.dinode st.data j)
      ∧ (∀ j M, j ≠ i → j ≠ dp → DirIs sb st j M → DirIs sb st' j M)
      ∧ (sb.freeBlocks st.data).card ≤ (sb.freeBlocks st'.data).card + 1 := by
  have hstep := step_addLinks hdp.consistent hdp.lt hdp.type_ne 1
  have hcard := freeBlocks_addLinks st hdp.lt 1
  have hdp₁ := hdp.relinked 1
  have h₁ := h.touch hstep.toTouches hne
  unfold createDots
  dsimp only
  rw [← hstep.others i h.lt hne]
  generalize iupdate sb st dp (addLinks (sb.dinode st.data dp) 1) = st₁ at hstep hcard hdp₁ h₁ ⊢
  rw [hstep.inode]
  rw [← hcard] at hfree ⊢
  obtain ⟨st₂, hdot, h₂, hw₂, hcard₂⟩ := h₁.append dotName (by simp) rfl (by decide)
    (by rw [show dirBlocks ([] : List (Option (Name × Nat))).length = 0 from rfl]; exact hfree) i
  rw [slot_deBytes_lt hpos.1 (lt_of_lt_of_le h.lt hfits)] at h₂
  have hfull : none ∉ ([] ++ [some (cname dotName, i)] : List (Option (Name × Nat))) := by simp
  obtain ⟨st₃, hdotdot, h₃, hw₃, hcard₃⟩ := h₂.append dotdotName hfull (by rfl)
    (show 1 < 17152 by decide)
    (show dirBlocks 2 ≤ _ + dirBlocks 1 by simp [dirBlocks]) dp
  rw [slot_deBytes_lt hpos.2 (lt_of_lt_of_le hdp.lt hfits)] at h₃
  rw [hdot, ok_bind]
  dsimp only
  rw [Bool.not_true, if_neg Bool.false_ne_true, hdotdot, ok_bind]
  have hd : sb.dinode st₃.data dp = sb.dinode st₁.data dp := by
    rw [hw₃.touches.others dp hdp.lt hne.symm, hw₂.touches.others dp hdp.lt hne.symm]
  refine ⟨st₃, by rw [hd]; rfl, h₃, (hdp₁.touch hw₂.touches hne.symm).touch hw₃.touches hne.symm,
    fun j hj hji hjd => ?_, fun j M hji hjd hj => ?_, ?_⟩
  · rw [hw₃.touches.others j hj hji, hw₂.touches.others j hj hji, hstep.others j hj hjd]
  · exact ((hj.touch hstep.toTouches hjd).touch hw₂.touches hji).touch hw₃.touches hji
  · simp [dirBlocks] at hcard₂ hcard₃
    omega

/-- `ialloc` finds a free inode. -/
theorem ialloc_free (hpos : 0 < i) (hi : i < sb.ninodes) (hfree : (sb.dinode st.data i).type = 0)
    (type : Nat) : ∃ r, ialloc sb st type = .ok r := by
  unfold ialloc
  split
  · grind
  · exact ⟨_, rfl⟩

/-- `mkdir` in a directory with an empty slot. -/
theorem DirIs.mkdir {dp : Nat} (h : DirIs sb st dp L) (name : List Byte) (hdp : 0 < dp) (hfits : sb.ninodes ≤ 2 ^ 16)
    (hfind : find L (cname name) = none) (hslot : none ∈ L) (hpos : 0 < i) (hi : i < sb.ninodes)
    (hunused : (sb.dinode st.data i).type = 0) (hfree : 0 < (sb.freeBlocks st.data).card) :
    ∃ inum st', create sb st dp name .dir 0 0 = .ok (some inum, st')
      ∧ (sb.dinode st.data inum).type = 0
      ∧ DirIs sb st' inum [some (dotName, inum), some (dotdotName, dp)]
      ∧ DirIs sb st' dp (put L (free L) (some (cname name, inum)))
      ∧ (∀ j < sb.ninodes, j ≠ inum → j ≠ dp → sb.dinode st'.data j = sb.dinode st.data j)
      ∧ (∀ j M, j ≠ inum → j ≠ dp → DirIs sb st j M → DirIs sb st' j M)
      ∧ (sb.freeBlocks st.data).card ≤ (sb.freeBlocks st'.data).card + 3 := by
  obtain ⟨⟨inum, st₁⟩, ha⟩ := ialloc_free hpos hi hunused FileType.dir.code
  obtain ⟨hipos, hilt, -, hu₁⟩ := ialloc_ok (by decide) ha
  have hnew : (sb.dinode st₁.data inum).type ≠ 0 := by
    rw [hu₁.inodes, if_pos rfl]
    decide
  have hl := ilock_dinode hnew
  have ha' : ialloc sb st (FileType.code .dir) = .ok (inum, st₁) := ha
  obtain ⟨-, hwas, halloc, hinit, -, hfresh, -⟩ := touches_ialloc 0 0 h.consistent ha' hl
  have hne : inum ≠ dp := fun hc => h.type_ne (hc ▸ hwas)
  have hu₂ : Updated sb st₁.data (iupdate sb st₁ inum ((sb.dinode st₁.data inum).init 0 0)).data inum _ :=
    iupdate_spec (hinit.inode ▸ sb.dinode_fits _ inum) hilt
  unfold create
  rw [ilock_dinode h.type_ne]
  simp only [Except.mapError, ok_bind, h.dirlookup_eq, h.slots, hfind, Option.map_none, ha, hl, if_true]
  have htype : ((sb.dinode st₁.data inum).init 0 0).type = FileType.dir.code := by
    rw [hfresh]
    rfl
  have hsize : ((sb.dinode st₁.data inum).init 0 0).size = 0 := by
    rw [hfresh]
    rfl
  generalize iupdate sb st₁ inum ((sb.dinode st₁.data inum).init 0 0) = st₂ at hinit hu₂ ⊢
  generalize (sb.dinode st₁.data inum).init 0 0 = q at hinit htype hsize ⊢
  obtain rfl := hinit.inode
  have htouch := halloc.trans hinit.toTouches
  have hcard : sb.freeBlocks st₂.data = sb.freeBlocks st.data :=
    Superblock.freeBlocks_congr fun c _ => (hu₂.bits c).trans (hu₁.bits c)
  have hempty : DirIs sb st₂ inum [] := by
    refine ⟨isMap_empty htouch.consistent hilt htype hsize, ?_⟩
    rw [← length_eq_zero_iff, slotsOf, length_dirSlots, content_length, hsize]
    rfl
  have hdp₂ := h.touch htouch hne.symm
  rw [← htouch.others dp h.lt hne.symm]
  rw [← hcard] at hfree ⊢
  obtain ⟨st₃, hdots, hi₃, hdp₃, hothers, hdirs, hcard₃⟩ :=
    createDots_room hempty hdp₂ hne ⟨hipos, hdp⟩ hfits hfree
  obtain ⟨k, hk⟩ := getElem?_of_mem hslot
  obtain ⟨st₄, hlink, hdp₄, hw⟩ := hdp₃.enter hfind (.inl ⟨k, hdp₃.slots ▸ hk⟩) inum
  rw [slot_deBytes_lt hipos (lt_of_lt_of_le hilt hfits)] at hdp₄
  simp only [hdots, ok_bind, hlink, Bool.not_true, if_neg Bool.false_ne_true]
  refine ⟨inum, st₄, rfl, hwas, hi₃.touch hw.touches hne, hdp₄, fun j hj hji hjd => ?_,
    fun j M hji hjd hj => ?_, ?_⟩
  · rw [hw.touches.others j hj hjd, hothers j hj hji hjd, htouch.others j hj hji]
  · exact (hdirs j M hji hjd (hj.touch htouch hji)).touch hw.touches hjd
  · have hneed := writeNeed_entry st₃.data (sb.dinode st₃.data dp) (free L)
    have hfree₄ := hw.free
    grind

end Grow

/-! ## Two directories full of names of one file -/

/-- The names: a letter and two bytes that are not NUL. -/
def linkName (k : Nat) : List Byte := [0x61, BitVec.ofNat 8 (k / 255 + 1), BitVec.ofNat 8 (k % 255 + 1)]

theorem ofNat_succ_ne_zero {x : Nat} (hx : x < 255) : BitVec.ofNat 8 (x + 1) ≠ 0 := by
  intro h0
  have := congrArg BitVec.toNat h0
  simp at this
  omega

theorem cname_linkName {k : Nat} (hk : k < 255 * 255) : cname (linkName k) = linkName k := by
  have h1 := ofNat_succ_ne_zero (x := k / 255) (by omega)
  have h2 := ofNat_succ_ne_zero (x := k % 255) (by omega)
  simp_all [cname, cstr, linkName, DIRSIZ]

theorem linkName_inj {j k : Nat} (hj : j < 255 * 255) (hk : k < 255 * 255) (h : linkName j = linkName k) :
    j = k := by
  simp only [linkName, cons.injEq, and_true, true_and] at h
  have h1 := congrArg BitVec.toNat h.1
  have h2 := congrArg BitVec.toNat h.2
  simp only [BitVec.toNat_ofNat] at h1 h2
  omega

/-- The slots of directory `d` under `p`: its own two entries and `m`
names of the file `f`. -/
def linkSlots (p d f m : Nat) : List (Option (Name × Nat)) :=
  some (dotName, d) :: some (dotdotName, p) :: (range m).map fun k => some (linkName k, f)

section Slots

variable {p d f m : Nat}

@[simp] theorem length_linkSlots : (linkSlots p d f m).length = m + 2 := by simp [linkSlots]

theorem linkSlots_succ : linkSlots p d f (m + 1) = linkSlots p d f m ++ [some (linkName m, f)] := by
  simp [linkSlots, range_succ]

theorem none_notMem_linkSlots : none ∉ linkSlots p d f m := by simp [linkSlots]

theorem getElem?_linkSlots {k : Nat} (hk : k < m) : (linkSlots p d f m)[k + 2]? = some (some (linkName k, f)) := by
  simp [linkSlots, hk]

theorem find_linkSlots (hm : m < 255 * 255) : find (linkSlots p d f m) (linkName m) = none := by
  refine SlotMap.find_eq_none.mpr fun k v hk => ?_
  have hmem := mem_of_getElem? hk
  simp only [linkSlots, mem_cons, mem_map, mem_range, Option.some.injEq, Prod.mk.injEq] at hmem
  rcases hmem with ⟨hdot, -⟩ | ⟨hdotdot, -⟩ | ⟨j, hj, hname, -⟩
  · simp [linkName, dotName] at hdot
  · simp [linkName, dotdotName] at hdotdot
  · exact absurd (linkName_inj (by omega) hm hname) hj.ne

end Slots

/-- Directories `d` and `e` have `m` and `n` names of the file `f`, which
counts them and its first one, and their blocks are those that are not
free of 600. -/
structure Fill (sb : Superblock) (p f d e : Nat) (st : FsState) (m n : Nat) : Prop where
  left : DirIs sb st d (linkSlots p d f m)
  right : DirIs sb st e (linkSlots p e f n)
  ne : d ≠ e
  range : 0 < f ∧ f < sb.ninodes ∧ f < 2 ^ 16
  file : (sb.dinode st.data f).type = FileType.file.code
  count : (sb.dinode st.data f).nlink = m + n + 1
  room : 600 ≤ (sb.freeBlocks st.data).card + dirBlocks (m + 2) + dirBlocks (n + 2)

section Fill

variable {sb : Superblock} {st : FsState} {p f d e m n : Nat}

theorem Fill.symm (h : Fill sb p f d e st m n) : Fill sb p f e d st n m where
  left := h.right
  right := h.left
  ne := h.ne.symm
  range := h.range
  file := h.file
  count := by rw [h.count, add_comm m n]
  room := by
    have := h.room
    omega

/-- Another name in the first directory. -/
theorem Fill.link (h : Fill sb p f d e st m n) (hm : m < 17150) (hn : n ≤ 17150) (hcount : m + n < 40000) :
    ∃ st', link sb st f (some d) (linkName m) = .ok (true, st') ∧ Fill sb p f d e st' (m + 1) n := by
  have hroom := h.room
  have hbound : dirBlocks (m + 2 + 1) + dirBlocks (n + 2) ≤ 600 := by grind [dirBlocks]
  have hname := cname_linkName (k := m) (by omega)
  obtain ⟨st', hlink, hdir, hfile, hdirs, hcard⟩ := h.left.linked (linkName m) h.range.2.1 h.file
    none_notMem_linkSlots (hname.symm ▸ find_linkSlots (by omega)) (by rw [length_linkSlots]; omega)
    (by rw [length_linkSlots]; omega)
  rw [length_linkSlots] at hcard
  rw [slot_deBytes_lt h.range.1 h.range.2.2, hname, ← linkSlots_succ] at hdir
  have hone : (addLinks (sb.dinode st.data f) 1).nlink = _ := addLinks_one (by rw [h.count]; omega)
  refine ⟨st', hlink, hdir, hdirs e _ h.ne.symm h.right, h.ne, h.range, ?_, ?_, ?_⟩
  · rw [hfile]
    exact h.file
  · rw [hfile, hone, h.count]
    omega
  · rw [add_right_comm m 1 2]
    omega

/-- The names `m`, …, `m + k - 1` in directory `d`. -/
def linksInto (f d m k : Nat) : List LinkOp := (List.range' m k).map fun j => .link f (some d) (linkName j)

theorem linksInto_inRange {k : Nat} (hf : f < sb.ninodes) (hd : d < sb.ninodes) :
    ∀ op ∈ linksInto f d m k, op.InRange sb := by
  intro op hop
  obtain ⟨j, -, rfl⟩ := mem_map.mp hop
  refine ⟨hf, fun x hx => ?_⟩
  cases hx
  exact hd

theorem Fill.links {k : Nat} (h : Fill sb p f d e st m n) (hm : m + k ≤ 17150) (hn : n ≤ 17150)
    (hcount : m + n + k ≤ 40000) :
    ∃ st', run (linkStep sb) st (linksInto f d m k) = some st' ∧ Fill sb p f d e st' (m + k) n := by
  induction k generalizing st m with
  | zero => exact ⟨st, rfl, h⟩
  | succ k ih =>
    obtain ⟨st₁, hlink, h₁⟩ := h.link (by omega) hn (by omega)
    obtain ⟨st₂, hrun, h₂⟩ := ih h₁ (by omega) (by omega)
    have hstep : linkStep sb st (.link f (some d) (linkName m)) = some st₁ := by
      simp only [linkStep, linkOp, hlink, Except.toOption, Option.map_some]
    refine ⟨st₂, run_cons.mpr ⟨st₁, hstep, hrun⟩, ?_⟩
    grind

/-- A name of a file with more links than a `short` counts. -/
theorem Fill.unlink_panics {k : Nat} (h : Fill sb p f d e st m n) (hk : k < m) (hm : m ≤ 17150)
    (hcount : 2 ^ 15 ≤ m + n + 1) (last : Bool) :
    unlink sb st d (linkName k) last = .error .unlinkNlink := by
  have hname := cname_linkName (k := k) (by omega)
  have hfind : find (slotsOf sb st d) (cname (linkName k)) = some (k + 2, f) := by
    rw [h.left.unique.find_eq_some, h.left.slots, hname]
    exact getElem?_linkSlots hk
  have hft : (sb.dinode st.data f).type ≠ 0 := by
    rw [h.file]
    decide
  have hne : f ≠ d := by
    rintro rfl
    exact absurd (h.file.symm.trans h.left.type) (by decide)
  have hdots : ¬(namecmp (linkName k) dotName = 0 ∨ namecmp (linkName k) dotdotName = 0) := by
    rw [namecmp_eq_zero, namecmp_eq_zero, hname]
    simp [linkName, dotName, dotdotName, cname, cstr, DIRSIZ]
  have hlow : nlinkLow (sb.dinode st.data f) = true := by simp_all [nlinkLow, h.count]
  unfold unlink
  rw [ilock_dinode h.left.type_ne]
  simp only [Except.mapError, ok_bind]
  rw [if_neg hdots, h.left.dirlookup_eq, hfind]
  simp only [ok_bind, Option.map_some, if_neg hne, ilock_dinode hft, hlow, if_true]

end Fill

/-! ## Counts of the image -/

theorem countOf_rootSlots (q : Nat → Prop) [DecidablePred q] :
    countOf q rootSlots = if q 2 then 1 else 0 := by
  have hplain : plainName fileName ∧ ¬plainName dotName ∧ ¬plainName dotdotName := by decide
  simp [countOf, rootSlots, counts, countP_cons, hplain]

theorem rootImage_notDir {i : Nat} (hi : i < mkfsSuper.ninodes) (h1 : i ≠ 1) :
    ¬(view mkfsSuper rootImage i).IsDir := by
  intro hdir
  have hdir : (mkfsSuper.dinode rootImage.data i).type = FileType.dir.code := hdir
  rcases eq_or_ne i 2 with rfl | h2
  · rw [rootImage_file] at hdir
    exact absurd hdir (by decide)
  · rw [rootImage_free hi h1 h2] at hdir
    exact absurd hdir (by decide)

theorem rootImage_entries (x : Nat) :
    entries mkfsSuper.ninodes (view mkfsSuper rootImage) x = if x = 2 then 1 else 0 := by
  unfold entries
  rw [Finset.sum_eq_single 1]
  · have hdir : (view mkfsSuper rootImage 1).IsDir := rootImage_isMap.type
    rw [View.names, if_pos hdir, view_slots rootImage_isMap.type, rootImage_slots, countOf_rootSlots]
    simp only [eq_comm]
  · intro d hd h1
    exact if_neg (rootImage_notDir (Finset.mem_range.mp hd) h1)
  · exact fun h => absurd (Finset.mem_range.mpr (by decide)) h

theorem rootImage_tree : Tree (2 ^ 15) mkfsSuper rootImage fun _ => 0 := by
  have hdir1 : ∀ {i}, i < mkfsSuper.ninodes → (view mkfsSuper rootImage i).IsDir → i = 1 := fun hi hdir =>
    by_contra fun h1 => rootImage_notDir hi h1 hdir
  have hcases : ∀ {x}, x < mkfsSuper.ninodes → (view mkfsSuper rootImage x).type ≠ 0 →
      (view mkfsSuper rootImage x).nlink = 1 ∧ (x = 1 ∨ x = 2) := by
    intro x hx ht
    rcases eq_or_ne x 1 with rfl | h1
    · exact ⟨congrArg Inode.nlink rootImage_root, .inl rfl⟩
    rcases eq_or_ne x 2 with rfl | h2
    · exact ⟨congrArg Inode.nlink rootImage_file, .inr rfl⟩
    · exact absurd (rootImage_free hx h1 h2) ht
  refine ⟨rootImage_consistent, fun d hd hdir => ?_, ⟨by decide, by decide⟩, fun x hx ht => ?_, fun x hx ht => ?_,
    fun x hx ht => ?_, fun d hd hdir nm y hs hnm => ?_⟩
  · obtain rfl := hdir1 hd hdir
    exact rootImage_isMap
  · obtain ⟨hone, rfl | rfl⟩ := hcases hx ht
    · have hroot : (view mkfsSuper rootImage 1).IsDir := rootImage_isMap.type
      rw [hone, rootImage_entries, View.children, if_pos hroot, view_slots rootImage_isMap.type,
        rootImage_slots, countOf_rootSlots, if_neg (rootImage_notDir (by decide) (by decide))]
      decide
    · rw [hone, rootImage_entries, View.children, if_neg (rootImage_notDir (by decide) (by decide))]
      decide
  · rw [(hcases hx ht).1]
    decide
  · rw [rootImage_entries, if_neg]
    rintro rfl
    exact absurd (ht.symm.trans (congrArg Inode.type rootImage_file)) (by decide)
  · obtain rfl := hdir1 hd hdir
    rw [view_slots rootImage_isMap.type, rootImage_slots, rootSlots] at hs
    constructor <;> grind

/-- A second name for the file. -/
theorem link_counts_stay_short_second :
    CountsUp mkfsSuper rootImage (.link 2 (some 1) [0x67]) := by
  have hrange : ∀ op ∈ [LinkOp.link 2 (some 1) [0x67]], op.InRange mkfsSuper := by
    intro op hop
    rw [mem_singleton.mp hop]
    exact ⟨by decide, by decide⟩
  refine ((link_counts_stay_short (by decide) rootImage_tree hrange).1.mpr ⟨fun st' _ i hi => ?_, ?_⟩).1
  · cases hi
    rw [rootImage_file]
    decide
  · exact fun _ _ => trivial

/-! ## The 32768th name -/

/-- The names of the two directories. -/
def leftName : List Byte := [0x64]
def rightName : List Byte := [0x65]

/-- `mkdir` twice. -/
theorem rootImage_mkdirs :
    ∃ d e st, run (linkStep mkfsSuper) rootImage
        [.create 1 leftName .dir 0 0, .create 1 rightName .dir 0 0] = some st
      ∧ d < mkfsSuper.ninodes ∧ e < mkfsSuper.ninodes ∧ Fill mkfsSuper 1 2 d e st 0 0 := by
  have hroot : DirIs mkfsSuper rootImage 1 rootSlots := ⟨rootImage_isMap, rootImage_slots⟩
  have hcard : 953 ≤ (mkfsSuper.freeBlocks rootImage.data).card := by
    have hsub : Finset.Ico 47 1000 ⊆ mkfsSuper.freeBlocks rootImage.data := by
      intro c hc
      rw [Finset.mem_Ico] at hc
      refine Superblock.mem_freeBlocks.mpr ⟨hc.2, ?_⟩
      simp_all [rootImage_bits c hc.2]
    have hle := Finset.card_le_card hsub
    rw [card_Ico] at hle
    exact hle
  obtain ⟨d, st₁, hmk₁, hd0, hd, hroot₁, hothers₁, hdirs₁, hcard₁⟩ := hroot.mkdir leftName (i := 3)
    (by decide) (by decide) (by decide) (by simp [rootSlots]) (by decide) (by decide)
    (rootImage_free (by decide) (by decide) (by decide)) (by omega)
  have hd2 : (2 : Nat) ≠ d := by
    rintro rfl
    rw [rootImage_file] at hd0
    cases hd0
  have hd1 : (1 : Nat) ≠ d := by
    rintro rfl
    rw [rootImage_root] at hd0
    cases hd0
  have hput : put rootSlots (free rootSlots) (some (cname leftName, d))
      = some (dotName, 1) :: some (dotdotName, 1) :: some (fileName, 2) :: some (leftName, d)
        :: replicate 60 none := rfl
  rw [hput] at hroot₁
  obtain ⟨i, hi, hipos, h1, h2, hne⟩ : ∃ i < mkfsSuper.ninodes, 0 < i ∧ i ≠ 1 ∧ i ≠ 2 ∧ i ≠ d := by
    rcases eq_or_ne 3 d with rfl | h3
    · exact ⟨4, by decide, by decide, by decide, by decide, by decide⟩
    · exact ⟨3, by decide, by decide, by decide, by decide, h3⟩
  have hunused := rootImage_free hi h1 h2
  rw [← hothers₁ i hi hne h1] at hunused
  obtain ⟨e, st₂, hmk₂, he0, he, hroot₂, hothers₂, hdirs₂, hcard₂⟩ := hroot₁.mkdir rightName (i := i)
    (by decide) (by decide) (by rfl) (by simp) hipos hi hunused (by omega)
  have hde : d ≠ e := by
    rintro rfl
    exact hd.type_ne he0
  have hfile₁ := hothers₁ 2 (by decide) hd2 (by decide)
  have he2 : (2 : Nat) ≠ e := by
    rintro rfl
    rw [hfile₁, rootImage_file] at he0
    cases he0
  have hfile : mkfsSuper.dinode st₂.data 2 = emptyFile := by
    rw [hothers₂ 2 (by decide) he2 (by decide), hfile₁, rootImage_file]
  have hstep₁ : linkStep mkfsSuper rootImage (.create 1 leftName .dir 0 0) = some st₁ := by
    simp only [linkStep, linkOp, hmk₁, ok_bind, Except.toOption, Option.map_some]
  have hstep₂ : linkStep mkfsSuper st₁ (.create 1 rightName .dir 0 0) = some st₂ := by
    simp only [linkStep, linkOp, hmk₂, ok_bind, Except.toOption, Option.map_some]
  refine ⟨d, e, st₂, run_cons.mpr ⟨st₁, hstep₁, run_cons.mpr ⟨st₂, hstep₂, run_nil ..⟩⟩, hd.lt, he.lt,
    hdirs₂ d _ hde hd1.symm hd, he, hde, by decide, ?_, ?_, ?_⟩
  · rw [hfile]
    rfl
  · rw [hfile]
    rfl
  · omega

/-- The file has 32767 links, the next call of `sys_link` succeeds, and
`sys_unlink` of the new name panics. -/
theorem link_count_wraps :
    Tree (2 ^ 15) mkfsSuper rootImage (fun _ => 0)
      ∧ ∃ ops st e name st', (∀ op ∈ ops, op.InRange mkfsSuper)
        ∧ run (linkStep mkfsSuper) rootImage ops = some st
        ∧ nlinkShort (mkfsSuper.dinode st.data 2) = 32767
        ∧ link mkfsSuper st 2 (some e) name = .ok (true, st')
        ∧ nlinkShort (mkfsSuper.dinode st'.data 2) = -32768
        ∧ unlink mkfsSuper st' e name true = .error .unlinkNlink := by
  obtain ⟨d, e, st₀, hmkdirs, hd, he, h₀⟩ := rootImage_mkdirs
  obtain ⟨st₁, hrun₁, h₁⟩ := h₀.links (k := 17150) (by decide) (by decide) (by decide)
  obtain ⟨st₂, hrun₂, h₂⟩ := h₁.symm.links (k := 15616) (by decide) (by decide) (by decide)
  obtain ⟨st₃, hlink, h₃⟩ := h₂.link (by decide) (by decide) (by decide)
  refine ⟨rootImage_tree, _, st₂, e, _, st₃, ?_, run_append (run_append hmkdirs hrun₁) hrun₂, ?_, hlink, ?_, ?_⟩
  · have hlinks : ∀ {x m k}, x < mkfsSuper.ninodes → ∀ op ∈ linksInto 2 x m k, op.InRange mkfsSuper :=
      fun hx => linksInto_inRange (by decide) hx
    intro op hop
    simp only [mem_append, mem_cons, not_mem_nil, or_false] at hop
    rcases hop with ((rfl | rfl) | hop) | hop
    · exact (by decide : 1 < 200)
    · exact (by decide : 1 < 200)
    · exact hlinks hd op hop
    · exact hlinks he op hop
  · rw [nlinkShort, h₂.count]
    decide
  · rw [nlinkShort, h₃.count]
    decide
  · exact h₃.unlink_panics (by decide) (by decide) (by decide) true

end Xv6.Dir
