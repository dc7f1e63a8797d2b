import Xv6.FsContent

/-!
# Short writes

`writei` stops at the first chunk whose user copy fails and reports the
bytes of the chunks before it. The copy works in the block's buffer, so
the failing one may have stored its first bytes there, and `writei`
releases that buffer without `log_write`.

`Logs` accounts for the buffers a piece of `fs.c` changes: each is
passed to `log_write`. It holds of everything `writei` does up to the
store of the failing copy. So the call is honest exactly when that store
changes nothing, or goes to a block that is logged anyway where no
reader looks.
-/

namespace Xv6

open Function List Nat

open ByteVec (Byte)

/-! ## What is logged -/

/-- From `st` to `st'` the blocks in `new` were passed to `log_write`,
and no other buffer changed. -/
structure Logs (new : List Nat) (st st' : FsState) : Prop where
  logged : st'.logged = st.logged ++ new
  data : ∀ b ∉ new, st'.data b = st.data b

section Logs

variable {st st' st'' : FsState} {new new' : List Nat}

theorem Logs.refl : Logs [] st st := ⟨(List.append_nil _).symm, fun _ _ => rfl⟩

theorem Logs.trans (h : Logs new st st') (h' : Logs new' st' st'') :
    Logs (new ++ new') st st'' := by
  refine ⟨by rw [h'.logged, h.logged, append_assoc], fun b hb => ?_⟩
  rw [mem_append, not_or] at hb
  rw [h'.data b hb.2, h.data b hb.1]

theorem logWrite_logs (st : FsState) (b : Nat) (v : Block) : Logs [b] st (st.logWrite b v) :=
  ⟨rfl, fun _ hc => update_of_ne (ne_of_not_mem_cons hc) ..⟩

variable {sb : Superblock}

/-- `balloc` logs the bitmap and the block it clears. -/
theorem balloc_logs {b : Nat} (h : balloc sb st = .ok (b, st')) :
    Logs [sb.bblock b, b] st st' := by
  unfold balloc at h
  split at h
  · cases h
  · obtain ⟨rfl, rfl⟩ := h
    exact (logWrite_logs ..).trans (logWrite_logs ..)

/-- None of the two was a data block in use. -/
theorem balloc_unused {b : Nat} (hmeta : sb.MetaUsed st.data) (h : balloc sb st = .ok (b, st')) :
    ∀ c ∈ [sb.bblock b, b], ¬sb.Used st.data c := by
  have ha := balloc_ok hmeta h
  intro c hc hu
  rcases mem_cons.mp hc with rfl | hc
  · exact hu.1.ne_bblock ha.isData.2 rfl
  · obtain rfl := mem_singleton.mp hc
    exact ha.not_used hu

end Logs

/-! ## `bmap` -/

/-- `bmap` of block `bn` of `ip`, with the blocks it logs: blocks that
were not in use, the block it returns among them if it is a fresh one,
and the indirect block. -/
structure MapLogs (sb : Superblock) (st : FsState) (ip : Inode) (bn a : Nat) (ip' : Inode)
    (st' : FsState) (new : List Nat) : Prop where
  logs : Logs new st st'
  fresh : slotVal st.data ip (slotOf bn) = 0 → a ∈ new
  only : ∀ c ∈ new, ¬sb.Used st.data c ∨ slotVal st'.data ip' NDIRECT = c

section Bmap

variable {sb : Superblock} {st st' : FsState} {ino : Nat → Inode} {i a : Nat} {ip ip' : Inode}

theorem Locked.ballocAddr_logs (h : Locked sb st.data ino i ip) {k : Fin (NDIRECT + 1)}
    (hr : ballocAddr sb st ip k = .ok (a, ip', st')) :
    ∃ new, Logs new st st' ∧ (ip.addrs k = 0 → a ∈ new) ∧ ∀ c ∈ new, ¬sb.Used st.data c := by
  unfold ballocAddr at hr
  by_cases hk : ip.addrs k = 0
  · rw [if_pos hk] at hr
    cases hb : balloc sb st with
    | error e =>
      rw [hb] at hr
      cases hr
    | ok r =>
      obtain ⟨b, st₁⟩ := r
      rw [hb] at hr
      obtain ⟨rfl, -, rfl⟩ := hr
      exact ⟨_, balloc_logs hb, fun _ => by simp, balloc_unused h.owned.metaUsed hb⟩
  · rw [if_neg hk] at hr
    obtain ⟨-, -, rfl⟩ := hr
    exact ⟨[], .refl, fun h0 => absurd h0 hk, fun _ hc => absurd hc not_mem_nil⟩

theorem Locked.ballocEntry_logs (h : Locked sb st.data ino i ip) {j : Nat}
    (hr : ballocEntry sb st (ip.addrs indSlot) j = .ok (a, st')) :
    ∃ new, Logs new st st' ∧ (indEntry st.data (ip.addrs indSlot) j = 0 → a ∈ new) ∧
      ∀ c ∈ new, ¬sb.Used st.data c ∨ ip.addrs indSlot = c := by
  unfold ballocEntry at hr
  by_cases hz : indEntry st.data (ip.addrs indSlot) j = 0
  · rw [if_pos hz] at hr
    cases hb : balloc sb st with
    | error e =>
      rw [hb] at hr
      cases hr
    | ok r =>
      obtain ⟨b, st₁⟩ := r
      rw [hb] at hr
      obtain ⟨rfl, rfl⟩ := hr
      refine ⟨_, (balloc_logs hb).trans (logWrite_logs ..), fun _ => by simp, fun c hc => ?_⟩
      rcases mem_append.mp hc with hc | hc
      · exact .inl (balloc_unused h.owned.metaUsed hb c hc)
      · exact .inr (mem_singleton.mp hc).symm
  · rw [if_neg hz] at hr
    obtain ⟨-, rfl⟩ := hr
    exact ⟨[], .refl, fun h0 => absurd h0 hz, fun _ hc => absurd hc not_mem_nil⟩

theorem Locked.bmap_logs (h : Locked sb st.data ino i ip) {bn : Nat} (hmax : bn < MAXFILE)
    (hr : bmap sb st ip bn = .ok (a, ip', st')) :
    ∃ new, MapLogs sb st ip bn a ip' st' new := by
  unfold bmap at hr
  by_cases hbn : bn < NDIRECT
  · rw [dif_pos hbn] at hr
    obtain ⟨new, hl, hf, ho⟩ := h.ballocAddr_logs hr
    refine ⟨new, hl, fun h0 => hf ?_, fun c hc => .inl (ho c hc)⟩
    rwa [slotOf, if_pos hbn, slotVal, dif_pos (lt_succ_of_lt hbn)] at h0
  · have hj : bn - NDIRECT < NINDIRECT := by
      have := fs_sizes
      omega
    have hslot : slotOf bn = NDIRECT + 1 + (bn - NDIRECT) := by
      rw [slotOf, if_neg hbn]
      omega
    rw [dif_neg hbn, if_pos hj] at hr
    rcases h.ballocAddr_spec indSlot with ⟨b, ip₁, st₁, hr₁, rfl, hfill⟩ | ⟨hr₁, -⟩
    · obtain ⟨new₁, hl₁, -, ho₁⟩ := h.ballocAddr_logs hr₁
      have hne : ip₁.addrs indSlot ≠ 0 := by
        rw [← slotVal_ind (d := st₁.data)]
        exact hfill.filled NDIRECT rfl
      simp only [hr₁, bind, Except.bind] at hr
      cases hr₂ : ballocEntry sb st₁ (ip₁.addrs indSlot) (bn - NDIRECT) with
      | error e =>
        rw [hr₂] at hr
        cases hr
      | ok r =>
        obtain ⟨b, st₂⟩ := r
        rw [hr₂] at hr
        obtain ⟨rfl, rfl, rfl⟩ := hr
        obtain ⟨new₂, hl₂, hf₂, ho₂⟩ := hfill.locked.ballocEntry_logs hr₂
        refine ⟨new₁ ++ new₂, hl₁.trans hl₂, fun h0 => ?_, fun c hc => ?_⟩
        · -- the entry is as it was before the indirect block was found
          have hentry := hfill.others (slotOf bn) (slotOf_ne_indSlot bn)
          simp_all [h0, hslot, slotVal_entry hj hne]
        · rcases mem_append.mp hc with hc | hc
          · exact .inl (ho₁ c hc)
          · rw [slotVal_ind]
            exact (ho₂ c hc).imp_left fun hu hu' => hu (hfill.grows.used c hu')
    · simp only [hr₁, bind, Except.bind] at hr
      cases hr

end Bmap

/-! ## The loop up to the failing copy -/

/-- The value of `tot` the loop of `writei` stops at: the first chunk
whose copy fails is not counted. -/
def copied (src : Source) (n tot off : Nat) : Nat :=
  if _h : tot < n then
    if (copyBytes src tot (chunk n tot off)).length < chunk n tot off then tot
    else copied src n (tot + chunk n tot off) (off + chunk n tot off)
  else tot
termination_by n - tot
decreasing_by
  have := chunk_pos _h off
  omega

/-- The chunks from `tot` to `tot'` are stored and logged. -/
structure Whole (sb : Superblock) (ino : Nat → Inode) (i : Nat) (src : Source) (tot off : Nat)
    (st : FsState) (ip : Inode) (tot' : Nat) (st' : FsState) (ip' : Inode) (new : List Nat) :
    Prop where
  locked : Locked sb st'.data ino i ip'
  grows : Grows sb st.data ip st'.data ip'
  le : tot ≤ tot'
  bytes : ∀ k, fileByte st'.data ip' k
    = if off ≤ k ∧ k < off + (tot' - tot) then (src (tot + (k - off))).getD 0
      else fileByte st.data ip k
  logs : Logs new st st'

/-- The copy of the chunk at `tot`, `off` fails in the block `bmap` has
found for it; `new` is what has been logged since `st`. -/
structure Fault (sb : Superblock) (src : Source) (n : Nat) (st : FsState) (ip : Inode)
    (tot off : Nat) (st₁ : FsState) (ip₁ : Inode) (new : List Nat) (st' : FsState) : Prop where
  short : (copyBytes src tot (chunk n tot off)).length < chunk n tot off
  mapped : slotVal st₁.data ip₁ (slotOf (off / BSIZE)) ≠ 0
  fresh : slotVal st.data ip (slotOf (off / BSIZE)) = 0 →
    slotVal st₁.data ip₁ (slotOf (off / BSIZE)) ∈ new
  only : ∀ c ∈ new, ¬sb.Used st.data c ∨
    ∃ s, s ≠ slotOf (off / BSIZE) ∧ slotVal st₁.data ip₁ s = c
  store : st' = { st₁ with
    data := update st₁.data (slotVal st₁.data ip₁ (slotOf (off / BSIZE)))
      ((st₁.data (slotVal st₁.data ip₁ (slotOf (off / BSIZE)))).patch (off % BSIZE)
        (copyBytes src tot (chunk n tot off))) }

section Loop

variable {sb : Superblock} {ino : Nat → Inode} {i n tot off tot' off' : Nat} {src : Source}
  {st st₁ st₂ st' : FsState} {ip ip₁ ip₂ : Inode} {new new' : List Nat}

/-- One full chunk and the chunks after it. -/
theorem Piece.whole (hp : Piece sb ino i st.data ip off (copyBytes src tot (chunk n tot off))
      st₁.data ip₁)
    (hlen : (copyBytes src tot (chunk n tot off)).length = chunk n tot off)
    (hlogs : Logs new st st₁)
    (hw : Whole sb ino i src (tot + chunk n tot off) (off + chunk n tot off) st₁ ip₁ tot' st₂ ip₂
      new') :
    Whole sb ino i src tot off st ip tot' st₂ ip₂ (new ++ new') := by
  have hle := hw.le
  refine ⟨hw.locked, hp.grows.trans hw.grows, by omega, fun k => ?_, hlogs.trans hw.logs⟩
  rw [hw.bytes, hp.bytes_eq, hlen]
  by_cases hk1 : off + chunk n tot off ≤ k ∧ k < off + chunk n tot off + (tot' - (tot + chunk n tot off))
  · grind
  · rw [if_neg hk1]
    by_cases hk2 : off ≤ k ∧ k < off + chunk n tot off
    · rw [if_pos hk2, if_pos ⟨hk2.1, by omega⟩, copyBytes_getD src _ _ (by omega)]
    · rw [if_neg hk2, if_neg (by omega)]

/-- A chunk that is not the last ends its block. -/
theorem chunk_next_block (hlt : tot + chunk n tot off < n) {off' : Nat}
    (hoff : off + chunk n tot off ≤ off') : off / BSIZE < off' / BSIZE := by
  have hchunk : chunk n tot off = min (n - tot) (1024 - off % 1024) := rfl
  show off / 1024 < off' / 1024
  omega

theorem Logs.mem_logged (h : Logs new st st') {b : Nat} :
    b ∈ st'.logged ↔ b ∈ st.logged ∨ b ∈ new := by
  rw [h.logged, mem_append]

/-- A full chunk before the failing one logs blocks that were not in use,
the indirect block and its own block. -/
theorem Piece.fault (hp : Piece sb ino i st.data ip off (copyBytes src tot (chunk n tot off))
      st₁.data ip₁)
    (hnew : ∀ c ∈ new, ¬sb.Used st.data c ∨
      ∃ s, (s = slotOf (off / BSIZE) ∨ s = NDIRECT) ∧ slotVal st₁.data ip₁ s = c)
    (hg : Grows sb st₁.data ip₁ st₂.data ip₂) (hblk : off / BSIZE < off' / BSIZE)
    (hf : Fault sb src n st₁ ip₁ tot' off' st₂ ip₂ new' st') :
    Fault sb src n st ip tot' off' st₂ ip₂ (new ++ new') st' := by
  have hslot : slotOf (off / BSIZE) ≠ slotOf (off' / BSIZE) := fun heq => by
    have := slotOf_inj heq
    omega
  refine ⟨hf.short, hf.mapped, fun h0 => ?_, fun c hc => ?_, hf.store⟩
  · -- the slot of the failing chunk is not one that this chunk fills
    refine mem_append_right _ (hf.fresh ?_)
    rw [hp.others _ ?_, h0]
    rintro (heq | ⟨-, heq⟩)
    · exact hslot heq.symm
    · exact slotOf_ne_indSlot _ heq
  · rcases mem_append.mp hc with hc | hc
    · rcases hnew c hc with hu | ⟨s, hs, rfl⟩
      · exact .inl hu
      · by_cases h0 : slotVal st₁.data ip₁ s = 0
        · exact .inl fun hu => hu.1.ne_zero h0
        · refine .inr ⟨s, ?_, hg.kept s h0⟩
          grind [slotOf_ne_indSlot]
    · exact (hf.only c hc).imp_left fun hu hu' => hu (hp.grows.used c hu')

/-- **The loop of `writei`, wherever it stops.** -/
theorem Locked.writeLoop_stops (h : Locked sb st.data ino i ip) (htot : tot ≤ n)
    (hmax : off + (n - tot) ≤ MAXFILE * BSIZE)
    (hr : writeLoop sb src n tot off ip st = .ok (tot', off', ip₁, st')) :
    tot' = copied src n tot off ∧ off' = off + (tot' - tot) ∧ tot' ≤ n ∧
      ∃ st₁ new, Whole sb ino i src tot off st ip tot' st₁ ip₁ new ∧
        (tot' = n ∧ st' = st₁ ∨ tot' < n ∧ Fault sb src n st ip tot' off' st₁ ip₁ new st') := by
  induction hk : n - tot using Nat.strong_induction_on generalizing tot off ip st with
  | _ k ih =>
    subst hk
    rw [writeLoop] at hr
    rw [copied]
    by_cases hlt : tot < n
    · have hpos := chunk_pos hlt off
      have hchunk : chunk n tot off ≤ n - tot := min_le_left ..
      have hblk : chunk n tot off ≤ BSIZE - off % BSIZE := min_le_right ..
      have hmod : off % BSIZE < BSIZE := mod_lt _ (by decide)
      have hlen := copyBytes_length_le src tot (chunk n tot off)
      have hoff : off / BSIZE < MAXFILE :=
        Nat.div_lt_of_lt_mul (by rw [Nat.mul_comm]; omega)
      rw [dif_pos hlt] at hr ⊢
      rcases h.bmap_spec hoff with ⟨a, ip₂, st₂, hb, rfl, hf⟩ | ⟨hb, -⟩
      · obtain ⟨new, hml⟩ := h.bmap_logs hoff hb
        have hne := hf.filled _ (.inl rfl)
        simp only [hb, bind, Except.bind] at hr
        by_cases hfail : (copyBytes src tot (chunk n tot off)).length < chunk n tot off
        · rw [if_pos hfail] at hr ⊢
          obtain ⟨rfl, rfl, rfl, rfl⟩ := hr
          refine ⟨rfl, by omega, by omega, st₂, new, ⟨hf.locked, hf.grows, le_refl _,
            fun k => ?_, hml.logs⟩, .inr ⟨hlt, hfail, hne, hml.fresh, fun c hc => ?_, rfl⟩⟩
          · rw [if_neg (by omega), hf.bytes]
          · exact (hml.only c hc).imp_right fun hc =>
              ⟨NDIRECT, (slotOf_ne_indSlot _).symm, hc⟩
        · have hfull : (copyBytes src tot (chunk n tot off)).length = chunk n tot off := by
            omega
          rw [if_neg hfail] at hr ⊢
          have hp := hf.piece (show off % BSIZE
            + (copyBytes src tot (chunk n tot off)).length ≤ BSIZE by omega)
          obtain ⟨htot', hoff', hle, st₃, new', hw, hend⟩ :=
            @ih (n - (tot + chunk n tot off)) (by omega) (tot + chunk n tot off)
              (off + chunk n tot off) (st₂.logWrite _ _) ip₂ hp.locked (by omega) (by omega) hr rfl
          have hwle := hw.le
          refine ⟨htot', by omega, hle, st₃, (new ++ [_]) ++ new',
            hp.whole hfull (hml.logs.trans (logWrite_logs ..)) hw, hend.imp_right ?_⟩
          rintro ⟨hlt', hfault⟩
          have hnext : off / BSIZE < off' / BSIZE :=
            chunk_next_block (show tot + chunk n tot off < n by omega) (by omega)
          refine ⟨hlt', hp.fault (fun c hc => ?_) hw.grows hnext hfault⟩
          have hslot := hf.locked.slotVal_store hne (slotOf_ne_indSlot _)
          rcases mem_append.mp hc with hc | hc
          · exact (hml.only c hc).imp_right fun hc => ⟨NDIRECT, .inr rfl, (hslot ..).trans hc⟩
          · exact .inr ⟨_, .inl rfl, (hslot ..).trans (mem_singleton.mp hc).symm⟩
      · simp only [hb, bind, Except.bind] at hr
        cases hr
    · rw [dif_neg hlt] at hr ⊢
      obtain ⟨rfl, rfl, rfl, rfl⟩ := hr
      refine ⟨rfl, by omega, htot, st', [], ⟨h, .refl, le_refl _, fun k => ?_, .refl⟩,
        .inl ⟨by omega, rfl⟩⟩
      rw [if_neg (by omega)]

end Loop

/-! ## What a write reports -/

/-- A write that changes what it reports and nothing else: the content is
the old one with the first `r` source bytes at `off`, and every buffer
that changed was passed to `log_write`. -/
structure Reports (sb : Superblock) (i : Nat) (src : Source) (off : Nat) (st st' : FsState)
    (r : Nat) : Prop where
  content_eq : content sb st'.data i = splice (content sb st.data i) off (src.bytes r)
  logged : ∀ b, st'.data b ≠ st.data b → b ∈ st'.logged

/-- The bytes that the failing copy stores are harmless: its block is a
fresh one, or they are the bytes that are there already, or they lie past
the end of the file in a block that is in the log. If no copy fails there
are no such bytes. -/
def TailKept (st : FsState) (ip : Inode) (src : Source) (off n : Nat) : Prop :=
  let r := copied src n 0 off
  let b := slotVal st.data ip (slotOf ((off + r) / BSIZE))
  let bytes := copyBytes src r (chunk n r (off + r))
  ∀ j < bytes.length, b = 0 ∨ bytes.getD j 0 = fileByte st.data ip (off + r + j) ∨
    b ∈ st.logged ∧ ip.size ≤ off + r + j

section Reports

variable {sb : Superblock} {i n off tot : Nat} {src : Source} {st st₁ st₂ st' : FsState}
  {ip₁ ip' : Inode} {d d₁ d' : Disk} {new : List Nat}

/-- The content after a write, by bytes. -/
theorem Written.content_iff (hw : Written sb i src off n d (sb.dinode d i) tot d' ip' d₁ ip₁)
    (hoff : off ≤ (sb.dinode d i).size) :
    content sb d' i = splice (content sb d i) off (src.bytes tot) ↔
      ∀ k < max (sb.dinode d i).size (off + tot), fileByte d₁ ip₁ k
        = if off ≤ k ∧ k < off + tot then (src (k - off)).getD 0
          else fileByte d (sb.dinode d i) k := by
  unfold content Source.bytes
  rw [hw.dinode_self, hw.size, ← splice_map_range (g := fun k =>
    if off ≤ k ∧ k < off + tot then (src (k - off)).getD 0 else fileByte d (sb.dinode d i) k)
    hoff fun _ => rfl, map_inj_left]
  simp only [mem_range, hw.fileByte_eq]

/-- A write whose copies all succeed reports what it does. -/
theorem Whole.reports (hwh : Whole sb (sb.dinode st.data) i src 0 off st (sb.dinode st.data i) tot
      st₁ ip₁ new)
    (hw : Written sb i src off n st.data (sb.dinode st.data i) tot st'.data ip' st₁.data ip₁)
    (hoff : off ≤ (sb.dinode st.data i).size) {b : Nat} (hu : Logs [b] st₁ st') :
    Reports sb i src off st st' tot := by
  refine ⟨(hw.content_iff hoff).mpr fun k _ => ?_, fun c hne => ?_⟩
  · have := hwh.bytes k
    rwa [Nat.sub_zero, Nat.zero_add] at this
  · have hl := hwh.logs.trans hu
    rw [hl.mem_logged]
    exact .inr (by_contra fun hno => hne (hl.data c hno))

/-- The store of a failing copy, by bytes of the file. -/
theorem Fault.bytes_eq (hf : Fault sb src n st (sb.dinode st.data i) tot off st₁ ip₁ new st₂)
    (hl : Locked sb st₁.data (sb.dinode st.data) i ip₁) (k : Nat) :
    fileByte st₂.data ip₁ k
      = if off ≤ k ∧ k < off + (copyBytes src tot (chunk n tot off)).length then
          (copyBytes src tot (chunk n tot off)).getD (k - off) 0
        else fileByte st₁.data ip₁ k := by
  have hshort := hf.short
  have hchunk : chunk n tot off ≤ BSIZE - off % BSIZE := min_le_right ..
  rw [hf.store]
  exact hl.fileByte_patch hf.mapped (by omega) k

/-- It changes the block exactly when it changes a byte of it. -/
theorem Fault.data_eq_iff (hf : Fault sb src n st (sb.dinode st.data i) tot off st₁ ip₁ new st₂)
    (hl : Locked sb st₁.data (sb.dinode st.data) i ip₁) :
    st₂.data = st₁.data ↔ ∀ j < (copyBytes src tot (chunk n tot off)).length,
      (copyBytes src tot (chunk n tot off)).getD j 0 = fileByte st₁.data ip₁ (off + j) := by
  have hshort := hf.short
  have hchunk : chunk n tot off ≤ BSIZE - off % BSIZE := min_le_right ..
  constructor
  · grind [hf.bytes_eq hl, add_sub_cancel_left]
  · intro heq
    rw [hf.store]
    refine update_eq_self_iff.mpr (ByteVec.patch_eq_self fun j hj => ?_)
    have hin : off ≤ off + j ∧ off + j < off + chunk n tot off := ⟨by omega, by omega⟩
    obtain ⟨hdiv, -⟩ := (in_block_iff (by omega)).mp hin
    have hmod : (off + j) % BSIZE = off % BSIZE + j := by grind
    rw [heq j hj, fileByte, hdiv, if_neg hf.mapped, hmod]

/-- The block of the failing copy is logged by this call exactly if it is
a fresh one. -/
theorem Fault.mem_new_iff (hf : Fault sb src n st (sb.dinode st.data i) tot off st₁ ip₁ new st₂)
    (hl₀ : Locked sb st.data (sb.dinode st.data) i (sb.dinode st.data i))
    (hl : Locked sb st₁.data (sb.dinode st.data) i ip₁)
    (hg : Grows sb st.data (sb.dinode st.data i) st₁.data ip₁) :
    slotVal st₁.data ip₁ (slotOf (off / BSIZE)) ∈ new ↔
      slotVal st.data (sb.dinode st.data i) (slotOf (off / BSIZE)) = 0 := by
  refine ⟨fun hmem => ?_, hf.fresh⟩
  by_contra hne
  rcases hf.only _ hmem with hu | ⟨s, hs, heq⟩
  · rw [hg.kept _ hne] at hu
    exact hu (hl₀.isUsed hne)
  · exact hs (hl.slot_inj hf.mapped heq)

/-- What the failing copy stores shows in the content where it is before
the end of the file. -/
theorem Fault.content_iff
    (hf : Fault sb src n st (sb.dinode st.data i) tot (off + tot) st₁ ip₁ new st₂)
    (hwh : Whole sb (sb.dinode st.data) i src 0 off st (sb.dinode st.data i) tot st₁ ip₁ new)
    (hw : Written sb i src off n st.data (sb.dinode st.data i) tot st'.data ip' st₂.data ip₁)
    (hoff : off ≤ (sb.dinode st.data i).size) :
    content sb st'.data i = splice (content sb st.data i) off (src.bytes tot) ↔
      ∀ j < (copyBytes src tot (chunk n tot (off + tot))).length,
        off + tot + j < (sb.dinode st.data i).size →
        (copyBytes src tot (chunk n tot (off + tot))).getD j 0
          = fileByte st.data (sb.dinode st.data i) (off + tot + j) := by
  rw [hw.content_iff hoff]
  constructor
  · intro hc j hj hlt
    have := hc (off + tot + j) (by omega)
    rwa [hf.bytes_eq hwh.locked, if_pos ⟨by omega, by omega⟩, if_neg (by omega),
      Nat.add_sub_cancel_left] at this
  · intro hall k hk
    have hold := hwh.bytes k
    rw [Nat.sub_zero, Nat.zero_add] at hold
    rw [hf.bytes_eq hwh.locked]
    grind

/-- Its block is passed to `log_write` if it is fresh, or was before. -/
theorem Fault.logged_iff
    (hf : Fault sb src n st (sb.dinode st.data i) tot off st₁ ip₁ new st₂)
    (hl₀ : Locked sb st.data (sb.dinode st.data) i (sb.dinode st.data i))
    (hl : Locked sb st₁.data (sb.dinode st.data) i ip₁)
    (hg : Grows sb st.data (sb.dinode st.data i) st₁.data ip₁) (hlogs : Logs new st st₁)
    (hu : Logs [sb.iblock i] st₂ st') :
    (∀ b, st'.data b ≠ st.data b → b ∈ st'.logged) ↔
      slotVal st.data (sb.dinode st.data i) (slotOf (off / BSIZE)) = 0 ∨
      slotVal st.data (sb.dinode st.data i) (slotOf (off / BSIZE)) ∈ st.logged ∨
      st₂.data = st₁.data := by
  have hnew := hf.mem_new_iff hl₀ hl hg
  have hkept := hg.kept (slotOf (off / BSIZE))
  have hne := (hl.isUsed hf.mapped).1.ne_iblock hl₀.lt
  have hother : ∀ c, c ≠ slotVal st₁.data ip₁ (slotOf (off / BSIZE)) →
      st₂.data c = st₁.data c := fun c hc => by
    rw [hf.store]
    exact update_of_ne hc ..
  have hmem : ∀ b, b ∈ st'.logged ↔ (b ∈ st.logged ∨ b ∈ new) ∨ b = sb.iblock i := fun b => by
    simp [hu.mem_logged, hlogs.mem_logged, mem_singleton, hf.store]
  -- outside the log of this call, only the store of the failing copy shows
  have hquiet : ∀ c, c ∉ new → c ≠ sb.iblock i →
      (st'.data c = st.data c ↔ st₂.data c = st₁.data c) := fun c hc hci => by
    rw [hu.data c (by simpa using hci), hlogs.data c hc]
  generalize slotVal st₁.data ip₁ (slotOf (off / BSIZE)) = a at hnew hkept hne hother
  generalize slotVal st.data (sb.dinode st.data i) (slotOf (off / BSIZE)) = b at hnew hkept
  constructor
  · grind
  · grind

/-- A write that stops at a failing copy reports what it does exactly when
the store of that copy is harmless. -/
theorem Fault.reports_iff (h : Consistent sb st.data) (hi : i < sb.ninodes)
    (ht : (sb.dinode st.data i).type ≠ 0)
    (hf : Fault sb src n st (sb.dinode st.data i) tot (off + tot) st₁ ip₁ new st₂)
    (hwh : Whole sb (sb.dinode st.data) i src 0 off st (sb.dinode st.data i) tot st₁ ip₁ new)
    (hw : Written sb i src off n st.data (sb.dinode st.data i) tot st'.data ip' st₂.data ip₁)
    (hoff : off ≤ (sb.dinode st.data i).size) (hu : Logs [sb.iblock i] st₂ st') :
    Reports sb i src off st st' tot ↔
      ∀ j < (copyBytes src tot (chunk n tot (off + tot))).length,
        slotVal st.data (sb.dinode st.data i) (slotOf ((off + tot) / BSIZE)) = 0 ∨
        (copyBytes src tot (chunk n tot (off + tot))).getD j 0
          = fileByte st.data (sb.dinode st.data i) (off + tot + j) ∨
        slotVal st.data (sb.dinode st.data i) (slotOf ((off + tot) / BSIZE)) ∈ st.logged ∧
          (sb.dinode st.data i).size ≤ off + tot + j := by
  have hl₀ := h.owned.locked hi ht
  have hcontent := hf.content_iff hwh hw hoff
  have hlogged := hf.logged_iff hl₀ hwh.locked hwh.grows hwh.logs hu
  have hdata := hf.data_eq_iff hwh.locked
  have hold : ∀ j, fileByte st₁.data ip₁ (off + tot + j)
      = fileByte st.data (sb.dinode st.data i) (off + tot + j) := fun j => by
    rw [hwh.bytes, if_neg (by omega)]
  -- a byte before the end of the file is mapped
  have hmapped : ∀ j < (copyBytes src tot (chunk n tot (off + tot))).length,
      off + tot + j < (sb.dinode st.data i).size →
      slotVal st.data (sb.dinode st.data i) (slotOf ((off + tot) / BSIZE)) ≠ 0 := by
    intro j hj hlt
    have hlen := hf.short
    have hchunk : chunk n tot (off + tot) ≤ BSIZE - (off + tot) % BSIZE := min_le_right ..
    have hmod : (off + tot) % BSIZE < BSIZE := mod_lt _ (by decide)
    have hin : off + tot ≤ off + tot + j ∧ off + tot + j < off + tot + chunk n tot (off + tot) :=
      ⟨by omega, by omega⟩
    rw [← ((in_block_iff (by omega)).mp hin).1]
    exact h.mapped i hi ht _ hlt
  simp only [hold] at hdata
  constructor
  · rintro ⟨hc, hl⟩ j hj
    grind
  · intro hall
    constructor <;> grind

end Reports

/-- **What a write reports.** For every inode of a consistent file system
and every offset, length and source, a `writei` that returns `r ≥ 0` has
`r ≤ n`, and it changed what it reports and nothing else exactly when the
bytes stored by a failing copy are harmless. -/
theorem writei_reports_iff {sb : Superblock} {st st' : FsState} {i off n : Nat} {src : Source}
    {r : Int} {ip' : Inode} (h : Consistent sb st.data) (hi : i < sb.ninodes)
    (ht : (sb.dinode st.data i).type ≠ 0) (hoff : off < 2 ^ 32) (hn : n < 2 ^ 32)
    (hw : writei sb st i (sb.dinode st.data i) src off n = .ok (r, ip', st')) (h0 : 0 ≤ r) :
    r ≤ n ∧ (Reports sb i src off st st' r.toNat ↔
      TailKept st (sb.dinode st.data i) src off n) := by
  have hl := h.owned.locked hi ht
  have hacc : ¬writeRefused (sb.dinode st.data i) off n := fun href => by
    grind [writei_refused hoff hn href]
  have hacc' := hacc
  unfold writeRefused at hacc'
  have hmod : (off + n) % 2 ^ 32 = off + n := mod_eq_of_lt (by omega)
  rw [writei, if_neg (by omega), if_neg (by omega)] at hw
  have hmax : off + (n - 0) ≤ MAXFILE * BSIZE := by omega
  rcases hl.writeLoop_spec src (zero_le n) hmax with
    ⟨tot, off', ip₁, st₂, hloop, hwrote⟩ | ⟨hloop, -⟩
  · obtain ⟨htot, rfl, hle, st₁, new, hwh, hend⟩ :=
      hl.writeLoop_stops (zero_le n) hmax hloop
    rw [Nat.sub_zero] at hloop hwrote hend
    simp only [hloop, bind, Except.bind] at hw
    obtain ⟨rfl, rfl, rfl⟩ := hw
    have hwritten := hwrote.written (sb.dinode_fits st.data i) hn hacc rfl
    have hu := logWrite_logs st₂ (sb.iblock i)
    refine ⟨by omega, ?_⟩
    rw [Int.toNat_natCast, TailKept, ← htot]
    rcases hend with ⟨rfl, rfl⟩ | ⟨-, hf⟩
    · refine iff_of_true (hwh.reports hwritten (by omega) (hu _)) fun j hj => ?_
      have := copyBytes_length_le src tot (chunk tot tot (off + tot))
      have : chunk tot tot (off + tot) ≤ tot - tot := min_le_left ..
      omega
    · exact hf.reports_iff h hi ht hwh hwritten (by omega) (hu _)
  · simp only [hloop, bind, Except.bind] at hw
    cases hw

/-! ## A fault at the second byte -/

/-- A source of which only the first byte is mapped. -/
def firstByte (b : Byte) : Source := fun j => if j = 0 then some b else none

theorem firstByte_short (b : Byte) :
    (copyBytes (firstByte b) 0 (chunk 2 0 0)).length < chunk 2 0 0 :=
  show 1 < 2 by decide

theorem firstByte_copied (b : Byte) : copied (firstByte b) 2 0 0 = 0 := by
  simp [copied, firstByte_short b]

/-- Two bytes from it, over the file of the full disk: the call returns 0
with one byte stored. -/
theorem fullImage_short (b : Byte) :
    writei fullSuper fullImage 1 fullFile (firstByte b) 0 2 = .ok (0, fullFile,
      iupdate fullSuper { fullImage with
        data := update fullImage.data 5 ((fullImage.data 5).patch 0 [b]) } 1 fullFile) := by
  have hmap : bmap fullSuper fullImage fullFile 0 = .ok (5, fullFile, fullImage) :=
    bmap_mapped (by decide) (by rw [fullFile_slotVal]; decide)
  rw [writei, if_neg (by decide), if_neg (by decide), writeLoop, dif_pos (by decide)]
  simp only [zero_div, hmap, bind, Except.bind, if_pos (firstByte_short b)]
  rfl

/-- If that byte is the one in the file, nothing is changed. -/
theorem writei_reports_same :
    ∃ ip' st', writei fullSuper fullImage 1 (fullSuper.dinode fullImage.data 1) (firstByte 0) 0 2
        = .ok (0, ip', st') ∧ Reports fullSuper 1 (firstByte 0) 0 fullImage st' 0 := by
  have hw := fullImage_short 0
  rw [← fullImage_file] at hw
  refine ⟨_, _, hw, (writei_reports_iff fullImage_consistent (by decide) (by rw [fullImage_file]; decide)
    (by decide) (by decide) hw (Int.le_refl 0)).2.mpr ?_⟩
  rw [TailKept, firstByte_copied, fullImage_file]
  refine fun j hj => .inr (.inl ?_)
  obtain rfl : j = 0 := lt_one_iff.mp hj
  rfl

/-- Any other byte is in the file although the call returned 0, and its
buffer was not logged. -/
theorem writei_short_stores :
    ∃ ip' st', writei fullSuper fullImage 1 (fullSuper.dinode fullImage.data 1) (firstByte 7) 0 2
        = .ok (0, ip', st') ∧ st'.data 5 ≠ fullImage.data 5 ∧ 5 ∉ st'.logged ∧
      ¬Reports fullSuper 1 (firstByte 7) 0 fullImage st' 0 := by
  have hdata : (iupdate fullSuper { fullImage with
      data := update fullImage.data 5 ((fullImage.data 5).patch 0 [7]) } 1 fullFile).data 5
        ≠ fullImage.data 5 := fun heq => by
    have := congrArg (ByteVec.byte · 0) heq
    revert this
    decide
  refine ⟨_, _, by rw [fullImage_file]; exact fullImage_short 7, hdata, by decide, fun hrep => ?_⟩
  exact absurd (hrep.logged 5 hdata) (by decide)

end Xv6
