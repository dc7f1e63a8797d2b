import Xv6.FsMap

/-!
# The loop of `writei`

One iteration maps the block of the current offset and stores a piece of
the source into it. `Piece` is its effect; a copy that fails midway is
the same effect with fewer bytes. The loop is a sequence of pieces, and
the blocks it takes from the free ones are counted by `writeNeed`.
-/

namespace Xv6

open Function List Nat

open ByteVec (Byte)

/-! ## Stores into a data block -/

/-- A range that stays in one block. -/
theorem in_block_iff {off k len : Nat} (hlen : off % BSIZE + len ≤ BSIZE) :
    off ≤ k ∧ k < off + len ↔
      k / BSIZE = off / BSIZE ∧ off % BSIZE ≤ k % BSIZE ∧ k % BSIZE < off % BSIZE + len := by
  have : off % 1024 + len ≤ 1024 := hlen
  show _ ↔ k / 1024 = off / 1024 ∧ off % 1024 ≤ k % 1024 ∧ k % 1024 < off % 1024 + len
  omega

section Store

variable {sb : Superblock} {d : Disk} {ino : Nat → Inode} {i s : Nat} {ip : Inode}

/-- A block of file data is nobody's indirect block. -/
theorem Owned.store (h : Owned sb d ino) (hi : i < sb.ninodes) (ht : (ino i).type ≠ 0)
    (hne : slotVal d (ino i) s ≠ 0) (hs : s ≠ NDIRECT) (blk : Block) :
    Owned sb (update d (slotVal d (ino i) s) blk) ino := by
  have hu := h.isUsed hi ht hne
  refine ⟨h.exact.congr (fun x => ?_) fun c => used_update_data hu.1,
    metaUsed_update_data hu.1 h.metaUsed⟩
  refine slots_other h (fun _ => rfl) fun a _ hx htx hxa => update_of_ne ?_ ..
  rw [← hxa]
  exact h.ne_indBlock hi ht hne hx htx fun heq => hs (Prod.mk.inj heq).2.symm

theorem Locked.store (h : Locked sb d ino i ip) (hne : slotVal d ip s ≠ 0) (hs : s ≠ NDIRECT)
    (blk : Block) : Locked sb (update d (slotVal d ip s) blk) ino i ip := by
  refine ⟨?_, h.lt, h.type⟩
  have := h.owned.store (s := s) h.lt h.type_update
  rw [update_self] at this
  exact this hne hs blk

theorem Locked.slotVal_store (h : Locked sb d ino i ip) (hne : slotVal d ip s ≠ 0)
    (hs : s ≠ NDIRECT) (blk : Block) (t : Nat) :
    slotVal (update d (slotVal d ip s) blk) ip t = slotVal d ip t :=
  slotVal_congr rfl fun _ => update_of_ne (h.ne_indBlock hne hs).symm ..

theorem Locked.store_grows (h : Locked sb d ino i ip) (hne : slotVal d ip s ≠ 0)
    (hs : s ≠ NDIRECT) (blk : Block) :
    Grows sb d ip (update d (slotVal d ip s) blk) ip := by
  have hu := h.isUsed hne
  refine ⟨rfl, fun j hj => Superblock.dinode_update_data hu.1 hj,
    fun c hc => (used_update_data hu.1).mpr hc, fun t _ => h.slotVal_store hne hs blk t,
    fun t ht ht' => ?_, fun a _ hno => update_of_ne (hno s).symm ..⟩
  rw [h.slotVal_store hne hs blk t] at ht'
  exact absurd ht ht'

theorem Locked.fileByte_store (h : Locked sb d ino i ip) {bn : Nat}
    (hne : slotVal d ip (slotOf bn) ≠ 0) (blk : Block) (k : Nat) :
    fileByte (update d (slotVal d ip (slotOf bn)) blk) ip k
      = if k / BSIZE = bn then blk.byte (k % BSIZE) else fileByte d ip k := by
  have hslot := h.slotVal_store hne (slotOf_ne_indSlot bn) blk (slotOf (k / BSIZE))
  by_cases hk : k / BSIZE = bn
  · rw [if_pos hk, fileByte, hslot, hk, if_neg hne, update_self]
  · rw [if_neg hk]
    refine fileByte_congr hslot fun _ => update_of_ne (fun heq => hk ?_) ..
    exact slotOf_inj (h.slot_inj hne heq)

/-- The file after `bytes` are stored into the block of `off`. -/
theorem Locked.fileByte_patch (h : Locked sb d ino i ip) {off : Nat}
    (hne : slotVal d ip (slotOf (off / BSIZE)) ≠ 0) {bytes : List Byte}
    (hlen : off % BSIZE + bytes.length ≤ BSIZE) (k : Nat) :
    fileByte (update d (slotVal d ip (slotOf (off / BSIZE)))
        ((d (slotVal d ip (slotOf (off / BSIZE)))).patch (off % BSIZE) bytes)) ip k
      = if off ≤ k ∧ k < off + bytes.length then bytes.getD (k - off) 0 else fileByte d ip k := by
  rw [h.fileByte_store hne]
  simp only [in_block_iff hlen]
  by_cases hk : k / BSIZE = off / BSIZE
  · have hmod : k % BSIZE < BSIZE := mod_lt _ (by decide)
    simp only [hk, true_and, if_true]
    split
    · rename_i hin
      rw [ByteVec.byte_patch_in hin.1 hin.2 hmod 0]
      grind
    · rw [ByteVec.byte_patch_out (by omega), fileByte, hk, if_neg hne]
  · simp only [hk, false_and, if_false]

end Store

/-! ## One piece -/

/-- `bytes` were stored at offset `off` of the file, in one block. -/
structure Piece (sb : Superblock) (ino : Nat → Inode) (i : Nat) (d : Disk) (ip : Inode)
    (off : Nat) (bytes : List Byte) (d' : Disk) (ip' : Inode) : Prop where
  locked : Locked sb d' ino i ip'
  grows : Grows sb d ip d' ip'
  bytes_eq : ∀ k, fileByte d' ip' k
    = if off ≤ k ∧ k < off + bytes.length then bytes.getD (k - off) 0 else fileByte d ip k
  others : ∀ s, ¬bmapSlots (off / BSIZE) s → slotVal d' ip' s = slotVal d ip s
  filled : ∀ s, bmapSlots (off / BSIZE) s → slotVal d' ip' s ≠ 0
  free : (sb.freeBlocks d').card + bmapNeed d ip (off / BSIZE) = (sb.freeBlocks d).card

section Piece

variable {sb : Superblock} {st : FsState} {ino : Nat → Inode} {i off : Nat} {ip : Inode}

theorem Filled.piece {d d' : Disk} {ip' : Inode} {bytes : List Byte}
    (h : Filled sb ino i d ip d' ip' (bmapSlots (off / BSIZE)) (bmapNeed d ip (off / BSIZE)))
    (hlen : off % BSIZE + bytes.length ≤ BSIZE) :
    Piece sb ino i d ip off bytes (update d' (slotVal d' ip' (slotOf (off / BSIZE)))
      ((d' (slotVal d' ip' (slotOf (off / BSIZE)))).patch (off % BSIZE) bytes)) ip' := by
  have hne := h.filled (slotOf (off / BSIZE)) (.inl rfl)
  have hs := slotOf_ne_indSlot (off / BSIZE)
  have hslot := h.locked.slotVal_store hne hs
    ((d' (slotVal d' ip' (slotOf (off / BSIZE)))).patch (off % BSIZE) bytes)
  refine ⟨h.locked.store hne hs _, h.grows.trans (h.locked.store_grows hne hs _), fun k => ?_,
    fun s hT => by rw [hslot, h.others s hT], fun s hT => by rw [hslot]; exact h.filled s hT, ?_⟩
  · rw [h.locked.fileByte_patch hne hlen, h.bytes]
  · have hu := h.locked.isUsed hne
    rw [Superblock.freeBlocks_congr fun c hc => Superblock.bit_update_data hu.1 hc]
    exact h.free

/-- One iteration of the loop, up to its store. -/
theorem Locked.piece (h : Locked sb st.data ino i ip) (hoff : off / BSIZE < MAXFILE)
    (bytes : List Byte) (hlen : off % BSIZE + bytes.length ≤ BSIZE) :
    (∃ a ip' st', bmap sb st ip (off / BSIZE) = .ok (a, ip', st')
      ∧ Piece sb ino i st.data ip off bytes
        (update st'.data a ((st'.data a).patch (off % BSIZE) bytes)) ip')
    ∨ bmap sb st ip (off / BSIZE) = .error .outOfBlocks
      ∧ (sb.freeBlocks st.data).card < bmapNeed st.data ip (off / BSIZE) := by
  rcases h.bmap_spec hoff with ⟨a, ip', st', hr, rfl, hf⟩ | herr
  · exact .inl ⟨_, ip', st', hr, hf.piece hlen⟩
  · exact .inr herr

end Piece

/-! ## The bytes a copy moves -/

section Copy

variable (src : Source)

theorem copyBytes_length_le (i n : Nat) : (copyBytes src i n).length ≤ n := by
  induction n generalizing i with
  | zero => exact le_refl 0
  | succ n ih =>
    grind [copyBytes]

theorem copyBytes_length_eq {i n : Nat} (h : ∀ j < n, (src (i + j)).isSome) :
    (copyBytes src i n).length = n := by
  induction n generalizing i with
  | zero => rfl
  | succ n ih =>
    rw [copyBytes]
    split
    · have := h 0 (succ_pos n)
      grind
    · grind

theorem copyBytes_getD (i n : Nat) {j : Nat} (hj : j < (copyBytes src i n).length) :
    (copyBytes src i n).getD j 0 = (src (i + j)).getD 0 := by
  induction n generalizing i j with
  | zero => cases hj
  | succ n ih =>
    rw [copyBytes] at hj ⊢
    cases hsrc : src i with
    | none =>
      rw [hsrc] at hj
      cases hj
    | some b =>
      cases j with
      | zero => simp [hsrc]
      | succ j =>
        grind

end Copy

/-! ## Blocks a write needs -/

/-- How many of the file blocks `lo, …, hi - 1` have no block, and the
indirect block if it is missing and used. -/
def blocksNeeded (d : Disk) (ip : Inode) (lo hi : Nat) : Nat :=
  (range' lo (hi - lo)).countP (fun bn => slotVal d ip (slotOf bn) = 0)
    + if lo < hi ∧ NDIRECT < hi ∧ ip.addrs indSlot = 0 then 1 else 0

/-- The number of blocks a write of the bytes `[off, e)` allocates. -/
def writeNeed (d : Disk) (ip : Inode) (off e : Nat) : Nat :=
  if off < e then blocksNeeded d ip (off / BSIZE) ((e - 1) / BSIZE + 1) else 0

section Need

variable {sb : Superblock} {ino : Nat → Inode} {i off : Nat} {d d' : Disk} {ip ip' : Inode}
  {bytes : List Byte}

theorem Piece.blocksNeeded (h : Piece sb ino i d ip off bytes d' ip') {hi : Nat}
    (hlt : off / BSIZE < hi) :
    Xv6.blocksNeeded d ip (off / BSIZE) hi
      = bmapNeed d ip (off / BSIZE) + Xv6.blocksNeeded d' ip' (off / BSIZE + 1) hi := by
  have hrange : range' (off / BSIZE) (hi - off / BSIZE)
      = off / BSIZE :: range' (off / BSIZE + 1) (hi - (off / BSIZE + 1)) := by
    rw [show hi - off / BSIZE = hi - (off / BSIZE + 1) + 1 by omega, range'_succ]
  have hcount : (range' (off / BSIZE + 1) (hi - (off / BSIZE + 1))).countP
        (fun bn => slotVal d' ip' (slotOf bn) = 0)
      = (range' (off / BSIZE + 1) (hi - (off / BSIZE + 1))).countP
        (fun bn => slotVal d ip (slotOf bn) = 0) := by
    refine countP_congr fun bn hbn => ?_
    rw [mem_range'_1] at hbn
    rw [h.others (slotOf bn)]
    rintro (heq | ⟨-, heq⟩)
    · have := slotOf_inj heq
      omega
    · exact slotOf_ne_indSlot bn heq
  unfold Xv6.blocksNeeded bmapNeed
  by_cases hind : NDIRECT ≤ off / BSIZE
  · have hne : ip'.addrs indSlot ≠ 0 := by
      exact h.filled NDIRECT (.inr ⟨hind, rfl⟩)
    grind
  · have heq : ip'.addrs indSlot = ip.addrs indSlot := by
      refine h.others NDIRECT ?_
      rintro (heq | ⟨hle, -⟩)
      · exact slotOf_ne_indSlot _ heq.symm
      · exact hind hle
    grind

theorem bmapNeed_le {bn hi : Nat} (hlt : bn < hi) : bmapNeed d ip bn ≤ Xv6.blocksNeeded d ip bn hi := by
  unfold bmapNeed Xv6.blocksNeeded
  rw [show hi - bn = hi - (bn + 1) + 1 by omega, range'_succ, countP_cons]
  grind

theorem bmapNeed_le_writeNeed {e : Nat} (hlt : off < e) :
    bmapNeed d ip (off / BSIZE) ≤ Xv6.writeNeed d ip off e := by
  rw [Xv6.writeNeed, if_pos hlt]
  refine bmapNeed_le ?_
  show off / 1024 < (e - 1) / 1024 + 1
  omega

/-- A piece that goes on to the end of the request or of the block. -/
theorem Piece.writeNeed (h : Piece sb ino i d ip off bytes d' ip') {e : Nat} (hlt : off < e)
    (hlen : bytes.length = min (e - off) (BSIZE - off % BSIZE)) :
    Xv6.writeNeed d ip off e
      = bmapNeed d ip (off / BSIZE) + Xv6.writeNeed d' ip' (off + bytes.length) e := by
  have hblk : off / BSIZE < (e - 1) / BSIZE + 1 := by grind
  unfold Xv6.writeNeed
  rw [if_pos hlt, h.blocksNeeded hblk]
  by_cases hend : off + bytes.length < e
  · grind
  · have hlast : (e - 1) / BSIZE + 1 = off / BSIZE + 1 := by grind
    rw [if_neg hend, hlast]
    simp [Xv6.blocksNeeded]

end Need

/-! ## The loop -/

/-- The loop went from `tot`, `off` to `tot'`, `off'`. The bytes of the
request from `off'` on are not determined: the copy that failed may have
stored some of them. -/
structure Wrote (sb : Superblock) (ino : Nat → Inode) (i : Nat) (src : Source) (n tot off : Nat)
    (d : Disk) (ip : Inode) (tot' off' : Nat) (d' : Disk) (ip' : Inode) : Prop where
  locked : Locked sb d' ino i ip'
  grows : Grows sb d ip d' ip'
  pos : off' + tot = off + tot'
  le : tot ≤ tot'
  le_n : tot' ≤ n
  done : (∀ j, tot ≤ j → j < n → (src j).isSome) → tot' = n
  bytes : ∀ k, k < off' ∨ off + (n - tot) ≤ k → fileByte d' ip' k
    = if off ≤ k ∧ k < off' then (src (tot + (k - off))).getD 0 else fileByte d ip k
  mapped : ∀ k, off ≤ k → k < off' → slotVal d' ip' (slotOf (k / BSIZE)) ≠ 0
  free : tot' = n → (sb.freeBlocks d').card + writeNeed d ip off (off + (n - tot))
    = (sb.freeBlocks d).card

section Loop

variable {sb : Superblock} {ino : Nat → Inode} {i n tot off : Nat} {src : Source}
  {d d' d'' : Disk} {ip ip' ip'' : Inode} {st : FsState}

theorem Locked.wrote_end (h : Locked sb d ino i ip) (htot : tot = n) :
    Wrote sb ino i src n tot off d ip tot off d ip := by
  refine ⟨h, .refl, rfl, le_refl _, le_of_eq htot, fun _ => htot, fun k _ => ?_,
    fun k h1 h2 => by omega, fun _ => ?_⟩
  · rw [if_neg (by omega)]
  · rw [htot, Nat.sub_self, Nat.add_zero, writeNeed, if_neg (Nat.lt_irrefl _), Nat.add_zero]

/-- The failing copy: the loop stops with what is stored. -/
theorem Piece.wrote_fail (h : Piece sb ino i d ip off (copyBytes src tot (chunk n tot off)) d' ip')
    (htot : tot < n) (hlen : (copyBytes src tot (chunk n tot off)).length < chunk n tot off) :
    Wrote sb ino i src n tot off d ip tot off d' ip' := by
  have hchunk : chunk n tot off ≤ n - tot := min_le_left ..
  refine ⟨h.locked, h.grows, rfl, le_refl _, le_of_lt htot, fun hall => ?_,
    fun k hk => ?_, fun k h1 h2 => by omega, fun heq => by omega⟩
  · grind [copyBytes_length_eq]
  · grind [h.bytes_eq]

theorem Piece.need_step (h : Piece sb ino i d ip off (copyBytes src tot (chunk n tot off)) d' ip')
    (htot : tot < n) (hlen : (copyBytes src tot (chunk n tot off)).length = chunk n tot off) :
    Xv6.writeNeed d ip off (off + (n - tot)) = bmapNeed d ip (off / BSIZE)
      + Xv6.writeNeed d' ip' (off + chunk n tot off) (off + (n - tot)) := by
  have hneed := h.writeNeed (e := off + (n - tot)) (by omega) (by
    rw [hlen, Nat.add_sub_cancel_left]
    rfl)
  rwa [hlen] at hneed

/-- A full piece and the rest of the loop. -/
theorem Piece.wrote_step (h : Piece sb ino i d ip off (copyBytes src tot (chunk n tot off)) d' ip')
    (htot : tot < n) (hlen : (copyBytes src tot (chunk n tot off)).length = chunk n tot off)
    {tot' off' : Nat} (hw : Wrote sb ino i src n (tot + chunk n tot off) (off + chunk n tot off)
      d' ip' tot' off' d'' ip'') :
    Wrote sb ino i src n tot off d ip tot' off' d'' ip'' := by
  have hchunk : chunk n tot off ≤ n - tot := min_le_left ..
  have hend : off + chunk n tot off + (n - (tot + chunk n tot off)) = off + (n - tot) := by omega
  have hpos := hw.pos
  have hle := hw.le
  refine ⟨hw.locked, h.grows.trans hw.grows, by omega, by omega, hw.le_n,
    fun hall => hw.done fun j h1 h2 => hall j (by omega) h2, fun k hk => ?_, fun k h1 h2 => ?_,
    fun heq => ?_⟩
  · rw [hw.bytes k (by omega), h.bytes_eq, hlen]
    by_cases hk1 : off + chunk n tot off ≤ k ∧ k < off'
    · grind
    · rw [if_neg hk1]
      by_cases hk2 : off ≤ k ∧ k < off + chunk n tot off
      · rw [if_pos hk2, if_pos ⟨hk2.1, by omega⟩, copyBytes_getD src _ _ (by omega)]
      · rw [if_neg hk2, if_neg (by omega)]
  · by_cases hk : off + chunk n tot off ≤ k
    · exact hw.mapped k hk h2
    · -- the block of this piece stays mapped
      have hblk : k / BSIZE = off / BSIZE := by
        have hc : chunk n tot off ≤ BSIZE - off % BSIZE := min_le_right ..
        grind
      have hne := h.filled (slotOf (off / BSIZE)) (.inl rfl)
      rw [hblk, hw.grows.kept _ hne]
      exact hne
  · have hneed := h.need_step htot hlen
    have hfree := hw.free heq
    have := h.free
    rw [hend] at hfree
    omega

/-- **The loop of `writei` from any state**: it stops with the bytes
copied, or panics because there are fewer free blocks than it needs. -/
theorem Locked.writeLoop_spec (h : Locked sb st.data ino i ip) (src : Source) (htot : tot ≤ n)
    (hmax : off + (n - tot) ≤ MAXFILE * BSIZE) :
    (∃ tot' off' ip' st', writeLoop sb src n tot off ip st = .ok (tot', off', ip', st')
      ∧ Wrote sb ino i src n tot off st.data ip tot' off' st'.data ip')
    ∨ writeLoop sb src n tot off ip st = .error .outOfBlocks
      ∧ (sb.freeBlocks st.data).card < writeNeed st.data ip off (off + (n - tot)) := by
  -- induction on the number of bytes left
  induction hk : n - tot using Nat.strong_induction_on generalizing tot off ip st with
  | _ k ih =>
    rw [writeLoop]
    by_cases hlt : tot < n
    · have hpos := chunk_pos hlt off
      have hchunk : chunk n tot off ≤ n - tot := min_le_left ..
      have hblk : chunk n tot off ≤ BSIZE - off % BSIZE := min_le_right ..
      have hlen := copyBytes_length_le src tot (chunk n tot off)
      have hoff : off / BSIZE < MAXFILE :=
        Nat.div_lt_of_lt_mul (by rw [Nat.mul_comm]; omega)
      rw [dif_pos hlt]
      rcases h.piece hoff (copyBytes src tot (chunk n tot off)) (by omega) with
        ⟨a, ip', st', hr, hp⟩ | ⟨hr, hfull⟩
      · simp only [hr, bind, Except.bind]
        by_cases hfail : (copyBytes src tot (chunk n tot off)).length < chunk n tot off
        · rw [if_pos hfail]
          exact .inl ⟨tot, off, ip', _, rfl, hp.wrote_fail hlt hfail⟩
        · have hfull : (copyBytes src tot (chunk n tot off)).length = chunk n tot off := by
            omega
          rw [if_neg hfail]
          have hrest := @ih (n - (tot + chunk n tot off)) (by omega) (tot + chunk n tot off)
            (off + chunk n tot off) ip' (st'.logWrite a
              ((st'.data a).patch (off % BSIZE) (copyBytes src tot (chunk n tot off))))
            hp.locked (by omega) (by omega) rfl
          rcases hrest with ⟨tot', off', ip'', st'', hr', hw⟩ | ⟨hr', hneed⟩
          · exact .inl ⟨tot', off', ip'', st'', hr', hp.wrote_step hlt hfull hw⟩
          · refine .inr ⟨hr', ?_⟩
            have hstep := hp.need_step hlt hfull
            have hfree := hp.free
            grind [FsState.logWrite]
      · simp only [hr, bind, Except.bind]
        grind [lt_of_lt_of_le, bmapNeed_le_writeNeed]
    · rw [dif_neg hlt]
      exact .inl ⟨tot, off, ip, st, rfl, h.wrote_end (by omega)⟩

end Loop

end Xv6
