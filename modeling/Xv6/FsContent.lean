import Xv6.FsOps

/-!
# An inode is a byte string

Above the slots, an inode is a list of `size` bytes. In a consistent
file system every byte below `size` is mapped, so `readi` allocates
nothing and returns a piece of the list; `writei` replaces a piece of
it, extending the list where needed; `itrunc` makes it empty; and none
of them changes the list of another inode.
-/

namespace Xv6

open List Nat

open ByteVec (Byte)

/-! ## Replacing a piece of a list -/

section Splice

variable {α : Type}

/-- `c` with `bs` written at offset `off`, extended if needed. -/
def splice (c : List α) (off : Nat) (bs : List α) : List α :=
  c.take off ++ bs ++ c.drop (off + bs.length)

theorem splice_map_range {f g h : Nat → α} {m off n : Nat} (hoff : off ≤ m)
    (hg : ∀ k, g k = if off ≤ k ∧ k < off + n then h (k - off) else f k) :
    (range (max m (off + n))).map g
      = splice ((range m).map f) off ((range n).map h) := by
  refine ext_getElem ?_ fun k h1 h2 => ?_
  · simp [splice]
    omega
  · simp only [splice, getElem_map, getElem_range, getElem_append, hg,
      length_append, length_take, length_map, length_range, getElem_take,
      getElem_drop]
    grind

theorem take_drop_map_range (f : Nat → α) (m off n : Nat) :
    (((range m).map f).drop off).take n
      = (range (min n (m - off))).map fun j => f (off + j) := by
  refine ext_getElem (by simp) fun k h1 h2 => ?_
  simp

end Splice

/-! ## Consistent file systems -/

/-- A consistent file system: exact ownership, and no holes. -/
structure Consistent (sb : Superblock) (d : Disk) : Prop where
  owned : Owned sb d (sb.dinode d)
  sized : ∀ i < sb.ninodes, (sb.dinode d i).type ≠ 0 → (sb.dinode d i).size ≤ MAXFILE * BSIZE
  mapped : ∀ i < sb.ninodes, (sb.dinode d i).type ≠ 0 → ∀ k < (sb.dinode d i).size,
    slotVal d (sb.dinode d i) (slotOf (k / BSIZE)) ≠ 0

/-- The content of inode `i`. -/
def content (sb : Superblock) (d : Disk) (i : Nat) : List Byte :=
  (range (sb.dinode d i).size).map (fileByte d (sb.dinode d i))

/-- The other allocated inodes keep their fields and their content. -/
def OthersKeep (sb : Superblock) (d d' : Disk) (i : Nat) : Prop :=
  ∀ j < sb.ninodes, j ≠ i → (sb.dinode d j).type ≠ 0 →
    sb.dinode d' j = sb.dinode d j ∧ content sb d' j = content sb d j

section Others

variable {sb : Superblock} {d d' d₁ : Disk} {i : Nat} {ip ip' : Inode}

/-- Another inode whose slots and blocks are all as before. -/
structure Untouched (sb : Superblock) (d d' : Disk) (j : Nat) : Prop where
  inode : sb.dinode d' j = sb.dinode d j
  slot : ∀ s, slotVal d' (sb.dinode d j) s = slotVal d (sb.dinode d j) s
  block : ∀ s, slotVal d (sb.dinode d j) s ≠ 0 →
    d' (slotVal d (sb.dinode d j) s) = d (slotVal d (sb.dinode d j) s)

theorem Untouched.content_eq {j : Nat} (h : Untouched sb d d' j) :
    content sb d' j = content sb d j := by
  unfold content
  rw [h.inode]
  exact map_congr_left fun k _ => fileByte_congr (h.slot _) (h.block _)

theorem OthersKeep.of_untouched (h : ∀ j < sb.ninodes, j ≠ i → (sb.dinode d j).type ≠ 0 →
    Untouched sb d d' j) : OthersKeep sb d d' i := fun j hj hji ht =>
  ⟨(h j hj hji ht).inode, (h j hj hji ht).content_eq⟩

/-- Consistency after a call on inode `i`, from what it did to `i`. -/
theorem Consistent.of_untouched (h : Consistent sb d) (howned : Owned sb d' (sb.dinode d'))
    (hothers : ∀ j < sb.ninodes, j ≠ i → (sb.dinode d j).type ≠ 0 → Untouched sb d d' j)
    (htype : ∀ j < sb.ninodes, j ≠ i → (sb.dinode d' j).type = (sb.dinode d j).type)
    (hsize : (sb.dinode d' i).type ≠ 0 → (sb.dinode d' i).size ≤ MAXFILE * BSIZE)
    (hmapped : (sb.dinode d' i).type ≠ 0 → ∀ k < (sb.dinode d' i).size,
      slotVal d' (sb.dinode d' i) (slotOf (k / BSIZE)) ≠ 0) : Consistent sb d' := by
  refine ⟨howned, fun j hj ht => ?_, fun j hj ht k hk => ?_⟩
  · by_cases hji : j = i
    · exact hji ▸ hsize (hji ▸ ht)
    · have ht' : (sb.dinode d j).type ≠ 0 := htype j hj hji ▸ ht
      rw [(hothers j hj hji ht').inode]
      exact h.sized j hj ht'
  · by_cases hji : j = i
    · subst hji
      exact hmapped ht k hk
    · have ht' : (sb.dinode d j).type ≠ 0 := htype j hj hji ▸ ht
      have hu := hothers j hj hji ht'
      rw [hu.inode] at hk ⊢
      rw [hu.slot]
      exact h.mapped j hj ht' k hk

theorem Updated.inode_of_ne {j : Nat} (hu : Updated sb d₁ d' i ip') (hji : j ≠ i)
    (hino : sb.dinode d₁ j = sb.dinode d j) : sb.dinode d' j = sb.dinode d j := by
  rw [hu.inodes, if_neg hji, hino]

/-- Growing inode `i`, then writing it back. -/
theorem Grows.untouched (hg : Grows sb d ip d₁ ip') (h : Locked sb d (sb.dinode d) i ip)
    {iq : Inode} (hu : Updated sb d₁ d' i iq) {j : Nat} (hji : j ≠ i) (hj : j < sb.ninodes)
    (ht : (sb.dinode d j).type ≠ 0) : Untouched sb d d' j := by
  have hblock : ∀ s, slotVal d (sb.dinode d j) s ≠ 0 →
      d' (slotVal d (sb.dinode d j) s) = d (slotVal d (sb.dinode d j) s) := by
    intro s hne
    have hup : Function.update (sb.dinode d) i ip j = sb.dinode d j :=
      Function.update_of_ne hji ..
    have hused := h.owned.isUsed (s := s) hj (hup ▸ ht) (hup ▸ hne)
    rw [hup] at hused
    rw [hu.frame _ hused.1, hg.other_block h hji hj ht hne]
  refine ⟨hu.inode_of_ne hji (hg.inodes j hj), fun s => ?_, hblock⟩
  refine slotVal_congr rfl fun hne => ?_
  have := hblock NDIRECT (slotVal_ind ▸ hne)
  rwa [slotVal_ind] at this

/-- Freeing blocks of inode `i`, then writing it back. -/
theorem SameData.untouched (hs : SameData sb d d₁) (h : Owned sb d (sb.dinode d)) {iq : Inode}
    (hu : Updated sb d₁ d' i iq) {j : Nat} (hji : j ≠ i) (hj : j < sb.ninodes)
    (ht : (sb.dinode d j).type ≠ 0) : Untouched sb d d' j := by
  have hblock : ∀ s, slotVal d (sb.dinode d j) s ≠ 0 →
      d' (slotVal d (sb.dinode d j) s) = d (slotVal d (sb.dinode d j) s) := by
    intro s hne
    have hdata := (h.isUsed hj ht hne).1
    rw [hu.frame _ hdata, hs.frame _ hdata]
  refine ⟨hu.inode_of_ne hji (hs.inodes j hj), fun s => ?_, hblock⟩
  refine slotVal_congr rfl fun hne => ?_
  have := hblock NDIRECT (slotVal_ind ▸ hne)
  rwa [slotVal_ind] at this

end Others

/-! ## Writing and truncating -/

section Write

variable {sb : Superblock} {d d' d₁ : Disk} {i off n tot : Nat} {ip ip' ip₁ : Inode} {src : Source}

/-- The bytes of the source. -/
def Source.bytes (src : Source) (n : Nat) : List Byte := (List.range n).map fun j => (src j).getD 0

theorem Written.fileByte_eq (hw : Written sb i src off n d ip tot d' ip' d₁ ip₁) (k : Nat) :
    fileByte d' ip' k = fileByte d₁ ip₁ k := by
  have hslot : ∀ s, slotVal d' ip' s = slotVal d₁ ip₁ s := fun s => by
    refine slotVal_congr (by rw [hw.fields]) fun hne => ?_
    exact hw.updated.frame _ (hw.wrote.locked.indBlock hne).1
  exact fileByte_congr (hslot _) fun hne => hw.updated.frame _ (hw.wrote.locked.isUsed hne).1

theorem Written.dinode_self (hw : Written sb i src off n d ip tot d' ip' d₁ ip₁) :
    sb.dinode d' i = ip' := by
  rw [hw.updated.inodes, if_pos rfl]

theorem Written.untouched (hw : Written sb i src off n d ip tot d' ip' d₁ ip₁)
    (h : Locked sb d (sb.dinode d) i ip) {j : Nat} (hj : j < sb.ninodes) (hji : j ≠ i)
    (ht : (sb.dinode d j).type ≠ 0) : Untouched sb d d' j :=
  hw.wrote.grows.untouched h hw.updated hji hj ht

/-- A write keeps the file system consistent, also one that stops at a
failing copy. -/
theorem Written.consistent (hw : Written sb i src off n d (sb.dinode d i) tot d' ip' d₁ ip₁)
    (h : Consistent sb d) (hi : i < sb.ninodes) (ht : (sb.dinode d i).type ≠ 0)
    (hr : ¬writeRefused (sb.dinode d i) off n) : Consistent sb d' := by
  unfold writeRefused at hr
  have hle := hw.wrote.le_n
  refine h.of_untouched (i := i) hw.owned (fun j => hw.untouched (h.owned.locked hi ht))
    (fun j hj hji => ?_) (fun _ => ?_) fun _ k hk => ?_
  · rw [hw.updated.inode_of_ne hji (hw.wrote.grows.inodes j hj)]
  · rw [hw.dinode_self, hw.size]
    have := h.sized i hi ht
    omega
  · rw [hw.dinode_self] at hk ⊢
    rw [hw.size] at hk
    have hslot : slotVal d' ip' (slotOf (k / BSIZE)) = slotVal d₁ ip₁ (slotOf (k / BSIZE)) := by
      refine slotVal_congr (by rw [hw.fields]) fun hne => ?_
      exact hw.updated.frame _ (hw.wrote.locked.indBlock hne).1
    rw [hslot]
    by_cases hold : k < (sb.dinode d i).size
    · have hne := h.mapped i hi ht k hold
      rw [hw.wrote.grows.kept _ hne]
      exact hne
    · exact hw.wrote.mapped k (by omega) (by omega)

/-- A write whose copies succeeded. -/
theorem Written.content_eq (hw : Written sb i src off n d (sb.dinode d i) n d' ip' d₁ ip₁)
    (hr : ¬writeRefused (sb.dinode d i) off n) :
    content sb d' i = splice (content sb d i) off (src.bytes n) := by
  unfold writeRefused at hr
  unfold content Source.bytes
  rw [hw.dinode_self, hw.size]
  refine splice_map_range (by omega) fun k => ?_
  have hk := hw.wrote.bytes k (by omega)
  rw [zero_add] at hk
  rw [hw.fileByte_eq, hk]

theorem Consistent.truncated (h : Consistent sb d)
    (hs : SameData sb d d₁) (hl : Locked sb d₁ (sb.dinode d) i (sb.dinode d i).truncated)
    (hu : Updated sb d₁ d' i (sb.dinode d i).truncated) : Consistent sb d' := by
  have hself : sb.dinode d' i = (sb.dinode d i).truncated := by rw [hu.inodes, if_pos rfl]
  refine h.of_untouched (i := i) (hu.owned hl.owned hs.inodes)
    (fun j hj hji ht => hs.untouched h.owned hu hji hj ht) (fun j hj hji => ?_) (fun _ => ?_)
    fun _ k hk => ?_
  · rw [hu.inode_of_ne hji (hs.inodes j hj)]
  · rw [hself]
    exact zero_le _
  · rw [hself] at hk
    exact absurd hk (not_lt_zero k)

end Write

/-! ## Reading -/

section Read

variable {sb : Superblock} {st : FsState} {ip : Inode} {bn n tot off : Nat} {dst : Target}
  {out : List Byte}

/-- `bmap` of a mapped block allocates nothing. -/
theorem bmap_mapped (hmax : bn < MAXFILE) (hne : slotVal st.data ip (slotOf bn) ≠ 0) :
    bmap sb st ip bn = .ok (slotVal st.data ip (slotOf bn), ip, st) := by
  unfold bmap slotOf at *
  by_cases hbn : bn < NDIRECT
  · simp_all [hbn, slotVal, lt_succ_of_lt hbn, ballocAddr, hne]
  · have hj : bn - NDIRECT < NINDIRECT := by
      have := fs_sizes
      omega
    have hslot : bn + 1 = NDIRECT + 1 + (bn - NDIRECT) := by omega
    rw [if_neg hbn, hslot] at hne ⊢
    have hind : ip.addrs indSlot ≠ 0 := fun hz => by
      rw [slotVal, dif_neg (by omega), if_neg fun h => h.2 hz] at hne
      exact hne rfl
    simp_all [slotVal_entry hj hind, hbn, hj, ballocAddr, hind, bind, Except.bind, ballocEntry, hne]

/-- What one iteration reads. -/
theorem slice_eq_fileBytes {m : Nat} (hm : off % BSIZE + m ≤ BSIZE)
    (hne : slotVal st.data ip (slotOf (off / BSIZE)) ≠ 0) :
    (st.data (slotVal st.data ip (slotOf (off / BSIZE)))).slice (off % BSIZE) m
      = (range m).map fun j => fileByte st.data ip (off + j) := by
  refine map_congr_left fun j hj => ?_
  have hj' := mem_range.mp hj
  obtain ⟨hdiv, -⟩ := (in_block_iff (k := off + j) hm).mp ⟨by omega, by omega⟩
  have hmod : (off + j) % BSIZE = off % BSIZE + j := by grind
  rw [fileByte, hdiv, if_neg hne, hmod]

/-- How many of the `n` destination bytes from offset `i` a copy can
store: those before the first unmapped one. -/
def Target.reach (dst : Target) (i n : Nat) : Nat :=
  ((range n).takeWhile fun j => dst (i + j)).length

theorem Target.reach_le (dst : Target) (i n : Nat) : dst.reach i n ≤ n := by
  grind [reach, takeWhile_prefix, range]

theorem Target.reach_add (dst : Target) (i n m : Nat) :
    dst.reach i (n + m) = if dst.reach i n = n then n + dst.reach (i + n) m else dst.reach i n := by
  unfold reach
  rw [range_add, takeWhile_append, length_range, takeWhile_map]
  split
  · simp [Function.comp_def, add_assoc]
  · rfl

theorem Target.reach_eq {dst : Target} {i n : Nat} (h : ∀ j < n, dst (i + j) = true) :
    dst.reach i n = n := by
  unfold reach
  rw [takeWhile_eq_self_iff.mpr fun j hj => h j (mem_range.mp hj), length_range]

/-- The loop of `readi` over mapped blocks: it stores up to the first
unmapped byte of the destination. -/
theorem readLoop_reach (hmax : off + (n - tot) ≤ MAXFILE * BSIZE) (htot : tot ≤ n)
    (hmapped : ∀ k, off ≤ k → k < off + (n - tot) →
      slotVal st.data ip (slotOf (k / BSIZE)) ≠ 0) :
    readLoop sb dst n tot off ip st out = .ok
      (if dst.reach tot (n - tot) = n - tot then (n : Int) else -1,
      out ++ (range (dst.reach tot (n - tot))).map (fun j => fileByte st.data ip (off + j)),
      ip, st) := by
  induction hk : n - tot using Nat.strong_induction_on generalizing tot off out with
  | _ k ih =>
    subst hk
    rw [readLoop]
    by_cases hlt : tot < n
    · have hpos := chunk_pos hlt off
      have hchunk : chunk n tot off ≤ n - tot := min_le_left ..
      have hblk : chunk n tot off ≤ BSIZE - off % BSIZE := min_le_right ..
      have hoff : off / BSIZE < MAXFILE := Nat.div_lt_of_lt_mul (by rw [Nat.mul_comm]; omega)
      have hne := hmapped off (le_refl _) (by omega)
      have hsplit := dst.reach_add tot (chunk n tot off) (n - (tot + chunk n tot off))
      rw [← show n - tot = chunk n tot off + (n - (tot + chunk n tot off)) by omega] at hsplit
      have hle := dst.reach_le tot (chunk n tot off)
      have hstored : ((range (chunk n tot off)).map fun j =>
            fileByte st.data ip (off + j)).take (dst.reach tot (chunk n tot off))
          = (range (dst.reach tot (chunk n tot off))).map fun j =>
            fileByte st.data ip (off + j) := by
        rw [← map_take, take_range, min_eq_left hle]
      simp only [bmap_mapped hoff hne, bind, Except.bind]
      rw [slice_eq_fileBytes (by omega) hne, ← Target.reach, hstored, length_map,
        length_range]
      by_cases hfault : dst.reach tot (chunk n tot off) < chunk n tot off
      · -- the destination ends in this chunk
        grind
      · have hall : dst.reach tot (chunk n tot off) = chunk n tot off := by omega
        rw [if_pos hall] at hsplit
        have hrest := @ih (n - (tot + chunk n tot off)) (by omega) (tot + chunk n tot off)
          (off + chunk n tot off) (out ++ (range (chunk n tot off)).map fun j =>
            fileByte st.data ip (off + j)) (by omega) (by omega)
          (fun k h1 h2 => hmapped k (by omega) (by omega)) rfl
        rw [if_neg hfault, hall, hrest, hsplit, range_add, map_append, map_map,
          append_assoc]
        grind [Function.comp_def, add_assoc]
    · have heq : tot = n := by omega
      rw [dif_neg hlt, heq, Nat.sub_self]
      simp [Target.reach]

/-- The length `readi` works with: clamped at the end of the file, or
nothing where `off + n` wraps below `off`. -/
def readLen (size off n : Nat) : Nat :=
  if off > size ∨ (off + n) % 2 ^ 32 < off then 0
  else if (off + n) % 2 ^ 32 > size then size - off else n

theorem Consistent.readi_reach {i : Nat} (h : Consistent sb st.data) (dst : Target) (hi : i < sb.ninodes)
    (ht : (sb.dinode st.data i).type ≠ 0) (hoff : off < 2 ^ 32) (hn : n < 2 ^ 32) :
    ∃ m, m = readLen (sb.dinode st.data i).size off n ∧
      readi sb st (sb.dinode st.data i) dst off n = .ok
        (if dst.reach 0 m = m then (m : Int) else -1,
        ((content sb st.data i).drop off).take (dst.reach 0 m), sb.dinode st.data i, st) := by
  have hsize := h.sized i hi ht
  refine ⟨_, rfl, ?_⟩
  unfold readi readLen
  by_cases hr : off > (sb.dinode st.data i).size ∨ (off + n) % 2 ^ 32 < off
  · rw [if_pos hr, if_pos hr]
    simp [Target.reach]
  · rw [if_neg hr, if_neg hr]
    have hlen : (if (off + n) % 2 ^ 32 > (sb.dinode st.data i).size
        then (sb.dinode st.data i).size - off else n) ≤ (sb.dinode st.data i).size - off := by
      split <;> omega
    generalize (if (off + n) % 2 ^ 32 > (sb.dinode st.data i).size
        then (sb.dinode st.data i).size - off else n) = m at hlen
    have hle := dst.reach_le 0 m
    rw [readLoop_reach (by omega) (zero_le _) fun k h1 h2 => h.mapped i hi ht k (by omega),
      Nat.sub_zero, content, take_drop_map_range, Nat.min_eq_left (by omega), nil_append]

/-- The bytes `[off, min(off + n, size))`, or none. -/
def readBytes (ip : Inode) (c : List Byte) (off n : Nat) : List Byte :=
  if off > ip.size ∨ 2 ^ 32 ≤ off + n then [] else (c.drop off).take n

theorem Consistent.readi_spec {i : Nat} (h : Consistent sb st.data) (hi : i < sb.ninodes)
    (ht : (sb.dinode st.data i).type ≠ 0) (hoff : off < 2 ^ 32) (hn : n < 2 ^ 32)
    (hdst : ∀ j < n, dst j = true) :
    readi sb st (sb.dinode st.data i) dst off n
      = .ok ((readBytes (sb.dinode st.data i) (content sb st.data i) off n).length,
        readBytes (sb.dinode st.data i) (content sb st.data i) off n, sb.dinode st.data i, st) := by
  obtain ⟨m, hm, hread⟩ := h.readi_reach dst hi ht hoff hn
  have hlen : (content sb st.data i).length = (sb.dinode st.data i).size := by simp [content]
  unfold readLen at hm
  unfold readBytes
  by_cases hr : off > (sb.dinode st.data i).size ∨ 2 ^ 32 ≤ off + n
  · rw [if_pos (by omega)] at hm
    rw [hread, if_pos hr, hm]
    simp [Target.reach]
  · grind [mod_eq_of_lt, Target.reach_eq]

end Read

/-! ## The three calls -/

/-- A disk with the single data block 5. -/
def fullSuper : Superblock where
  size := 6
  ninodes := 16
  nlog := 0
  logstart := 2
  inodestart := 2
  bmapstart := 4
  log_fit := tinySuper.log_fit
  inodes_fit := tinySuper.inodes_fit
  bitmap_fit := by decide
  size_lt := by decide

/-- A file of one block, block 5. -/
def fullFile : Inode where
  type := 2
  major := 0
  minor := 0
  nlink := 1
  size := 1024
  addrs := fun k => if k = 0 then 5 else 0

/-- The file is inode 1; no block is free. -/
def fullImage : FsState where
  data := fun b =>
    if b = 2 then fullFile.encode (ByteVec.fill BSIZE 0) 1
    else if b = 4 then (ByteVec.fill BSIZE 0).patch 0 [0x3f]
    else ByteVec.fill BSIZE 0
  logged := []

theorem fullFile_fits : fullFile.Fits :=
  ⟨by decide, by decide, by decide, by decide, by decide, by decide⟩

theorem fullImage_file : fullSuper.dinode fullImage.data 1 = fullFile :=
  Inode.decode_encode_self fullFile_fits _ (by decide)

theorem fullImage_free {i : Nat} (hi : i < fullSuper.ninodes) (hne : i ≠ 1) :
    (fullSuper.dinode fullImage.data i).type = 0 := by
  have hi' : i < 16 := hi
  have hblk : fullImage.data (fullSuper.iblock i) = fullFile.encode (ByteVec.fill BSIZE 0) 1 := by
    refine if_pos ?_
    show i / 16 + 2 = 2
    omega
  rw [Superblock.dinode, hblk, Inode.decode_encode_other]
  · exact ByteVec.word_fill_zero ..
  · show i % 16 ≠ 1
    omega

theorem fullFile_slotVal (d : Disk) (s : Nat) : slotVal d fullFile s = if s = 0 then 5 else 0 := by
  unfold slotVal
  split
  · by_cases h0 : s = 0
    · subst h0
      rfl
    · rw [if_neg h0]
      exact if_neg fun h => h0 (congrArg Fin.val h)
  · rw [if_neg fun h => h.2 rfl, if_neg (by omega)]

theorem fullImage_slots {x : Nat × Nat} {b : Nat} :
    slots fullSuper fullImage.data (fullSuper.dinode fullImage.data) x = some b
      ↔ x = (1, 0) ∧ b = 5 := by
  obtain ⟨i, s⟩ := x
  rw [slots_eq_some]
  constructor
  · rintro ⟨hi, ht, hval, hb⟩
    grind [fullImage_file, fullFile_slotVal, fullImage_free]
  · rintro ⟨hx, rfl⟩
    obtain ⟨rfl, rfl⟩ := Prod.mk.inj hx
    exact ⟨by decide, by decide, rfl, by decide⟩

theorem fullImage_consistent : Consistent fullSuper fullImage.data := by
  have hbits : ∀ b < 6, fullSuper.bit fullImage.data b = true := by decide
  refine ⟨⟨⟨fun {x b} hx => ?_, fun {x y b} hx hy => ?_, fun {b} hb => ?_⟩, fun b hb => ?_⟩,
    fun i hi ht => ?_, fun i hi ht k hk => ?_⟩
  · obtain ⟨-, rfl⟩ := fullImage_slots.mp hx
    exact ⟨by decide, hbits 5 (by decide)⟩
  · rw [(fullImage_slots.mp hx).1, (fullImage_slots.mp hy).1]
  · have h1 : 5 ≤ b := hb.1.1
    have h2 : b < 6 := hb.1.2
    exact ⟨(1, 0), fullImage_slots.mpr ⟨rfl, by omega⟩⟩
  · have h1 : b < 5 := hb
    exact hbits b (by omega)
  · by_cases h1 : i = 1
    · rw [h1, fullImage_file]
      decide
    · exact absurd (fullImage_free hi h1) ht
  · by_cases h1 : i = 1
    · subst h1
      rw [fullImage_file] at hk ⊢
      have hk' : k < 1024 := hk
      have hdiv : k / BSIZE = 0 := div_eq_of_lt hk'
      rw [hdiv, fullFile_slotVal]
      decide
    · exact absurd (fullImage_free hi h1) ht

theorem fullImage_freeBlocks : (fullSuper.freeBlocks fullImage.data).card = 0 := by
  constructor <;> grind

end Xv6
