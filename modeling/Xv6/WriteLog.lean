import Xv6.Ends
import Xv6.ShortWrite

/-!
# What one chunk of a write logs

`filewrite` writes at most `((MAXOPBLOCKS-1-1-2) / 2) * BSIZE` bytes in
one transaction. Such a chunk has four blocks if it does not start at a
block boundary, and then the first of them is mapped. Each block logs
itself and, if it is a new one, its bitmap block; besides these there
are the indirect block, its bitmap block if it is new, and the inode's
block. That makes `MAXOPBLOCKS`.
-/

namespace Xv6

open List Finset Ends Nat

/-- The most `filewrite` asks of one call of `writei`. -/
def maxChunk : Nat := (MAXOPBLOCKS - 1 - 1 - 2) / 2 * BSIZE

/-- The blocks `bmap` logs: the block it returns and its bitmap block,
when it is a new one, and the indirect block with its bitmap block. -/
structure MapFoot (sb : Superblock) (mapped : Prop) (ip : Inode) (a : Nat) (ip' : Inode)
    (new : List Nat) : Prop where
  mem : ∀ c ∈ new, c = a ∨ c = sb.bblock a ∨ ip'.addrs indSlot ≠ 0 ∧
    (c = ip'.addrs indSlot ∨ ip.addrs indSlot = 0 ∧ c = sb.bblock (ip'.addrs indSlot))
  mapped : mapped → new = []
  kept : ip.addrs indSlot ≠ 0 → ip'.addrs indSlot = ip.addrs indSlot

/-- The blocks a piece of `writei` logs: `m` blocks, the indirect block
and, if it is a new one, its bitmap block. -/
def Footprint (sb : Superblock) (ip : Inode) (m : Nat) (new : List Nat) : Prop :=
  ∃ (ind : Nat) (R : Finset Nat), (ip.addrs indSlot ≠ 0 → ind = ip.addrs indSlot) ∧ R.card ≤ m ∧
    ∀ c ∈ new, c ∈ R ∨ c = ind ∨ ip.addrs indSlot = 0 ∧ c = sb.bblock ind

section Footprint

variable {sb : Superblock} {ip ip' : Inode} {a m : Nat} {new new' : List Nat} {mapped : Prop}

theorem Footprint.nil (sb : Superblock) (ip : Inode) : Footprint sb ip 0 [] :=
  ⟨ip.addrs indSlot, ∅, fun _ => rfl, le_refl 0, fun _ hc => absurd hc not_mem_nil⟩

/-- One block in front of the others. -/
theorem Footprint.step (hm : MapFoot sb mapped ip a ip' new) (hf : Footprint sb ip' m new') :
    Footprint sb ip (m + 2) (new ++ a :: new') ∧ (mapped → Footprint sb ip (m + 1) (new ++ a :: new')) := by
  obtain ⟨ind, R, hind, hcard, hnew'⟩ := hf
  have htwo : (insert a (insert (sb.bblock a) R)).card ≤ m + 2 :=
    (card_insert_le ..).trans (by have := card_insert_le (sb.bblock a) R; omega)
  have hone : (insert a R).card ≤ m + 1 := (card_insert_le ..).trans (by omega)
  -- the indirect block of the rest is the one of the whole
  have hkeep : ip.addrs indSlot ≠ 0 → ind = ip.addrs indSlot := fun h0 => by
    have hk := hm.kept h0
    rw [← hk] at h0 ⊢
    exact hind h0
  have hrest : ∀ c ∈ new', c ∈ R ∨ c = ind ∨ ip.addrs indSlot = 0 ∧ c = sb.bblock ind := fun c hc => by
    rcases hnew' c hc with h | h | ⟨h0, h⟩
    · exact .inl h
    · exact .inr (.inl h)
    · refine .inr (.inr ⟨?_, h⟩)
      by_contra hne
      exact hne (hm.kept hne ▸ h0)
  refine ⟨⟨ind, _, hkeep, htwo, fun c hc => ?_⟩, fun hmap => ⟨ind, _, hkeep, hone, fun c hc => ?_⟩⟩
  · rcases mem_append.mp hc with hc | hc
    · rcases hm.mem c hc with rfl | rfl | ⟨hne, h⟩
      · exact .inl (mem_insert_self ..)
      · simp
      · rw [← hind hne] at h
        exact .inr h
    · grind
  · grind [hm.mapped hmap, nil_append]

theorem Footprint.mono {m' : Nat} (h : Footprint sb ip m new) (hle : m ≤ m') : Footprint sb ip m' new := by
  obtain ⟨ind, R, h1, h2, h3⟩ := h
  exact ⟨ind, R, h1, h2.trans hle, h3⟩

theorem Footprint.of_subset (h : Footprint sb ip m new) (hsub : ∀ c ∈ new', c ∈ new) :
    Footprint sb ip m new' := by
  obtain ⟨ind, R, h1, h2, h3⟩ := h
  exact ⟨ind, R, h1, h2, fun c hc => h3 c (hsub c hc)⟩

/-- Two blocks more than `m`. -/
theorem Footprint.card (h : Footprint sb ip m new) : new.toFinset.card ≤ m + 2 := by
  obtain ⟨ind, R, -, hcard, hnew⟩ := h
  have hsub : new.toFinset ⊆ insert ind (insert (sb.bblock ind) R) := fun c hc => by
    rcases hnew c (mem_toFinset.mp hc) with h | rfl | ⟨-, rfl⟩
    · grind
    · exact mem_insert_self ..
    · simp
  have h1 := card_le_card hsub
  grind [card_insert_le]

end Footprint

/-! ## `bmap` -/

section Bmap

variable {sb : Superblock} {st st' : FsState} {ino : Nat → Inode} {i a : Nat} {ip ip' : Inode}

theorem ballocAddr_cases {k : Fin (NDIRECT + 1)} (hr : ballocAddr sb st ip k = .ok (a, ip', st')) :
    ip.addrs k ≠ 0 ∧ a = ip.addrs k ∧ ip' = ip ∧ st' = st
      ∨ ip.addrs k = 0 ∧ ip' = ip.setAddr k a ∧ Logs [sb.bblock a, a] st st' := by
  unfold ballocAddr at hr
  split at hr
  · rename_i h0
    obtain ⟨⟨b, st₁⟩, hb, hr⟩ := bind_ok hr
    grind [balloc_logs]
  · grind

theorem ballocEntry_cases {b j : Nat} (hr : ballocEntry sb st b j = .ok (a, st')) :
    indEntry st.data b j ≠ 0 ∧ a = indEntry st.data b j ∧ st' = st
      ∨ indEntry st.data b j = 0 ∧ Logs [sb.bblock a, a, b] st st' := by
  unfold ballocEntry at hr
  split at hr
  · rename_i h0
    obtain ⟨⟨c, st₁⟩, hb, hr⟩ := bind_ok hr
    obtain ⟨rfl, rfl⟩ := hr
    exact .inr ⟨h0, (balloc_logs hb).trans (logWrite_logs ..)⟩
  · grind

theorem bmap_foot_direct {bn : Nat} (hbn : bn < NDIRECT) (hr : bmap sb st ip bn = .ok (a, ip', st')) :
    ∃ new, Logs new st st' ∧ MapFoot sb (slotVal st.data ip (slotOf bn) ≠ 0) ip a ip' new := by
  have hslot : slotVal st.data ip (slotOf bn) = ip.addrs ⟨bn, lt_succ_of_lt hbn⟩ := by
    rw [slotOf, if_pos hbn, slotVal, dif_pos (lt_succ_of_lt hbn)]
  rw [bmap, dif_pos hbn] at hr
  rw [hslot]
  rcases ballocAddr_cases hr with ⟨-, rfl, rfl, rfl⟩ | ⟨h0, rfl, hl⟩
  · exact ⟨[], .refl, ⟨fun c hc => absurd hc not_mem_nil, fun _ => rfl, fun _ => rfl⟩⟩
  · refine ⟨_, hl, ⟨fun c hc => ?_, fun hne => absurd h0 hne, fun _ => Inode.setAddr_of_ne ?_⟩⟩
    · grind
    · grind

theorem Locked.bmap_foot (h : Locked sb st.data ino i ip) {bn : Nat} (hmax : bn < MAXFILE)
    (hr : bmap sb st ip bn = .ok (a, ip', st')) :
    ∃ new, Logs new st st' ∧ MapFoot sb (slotVal st.data ip (slotOf bn) ≠ 0) ip a ip' new := by
  by_cases hbn : bn < NDIRECT
  · exact bmap_foot_direct hbn hr
  · have hj : bn - NDIRECT < NINDIRECT := by
      have := fs_sizes
      omega
    have hslot : slotOf bn = NDIRECT + 1 + (bn - NDIRECT) := by
      rw [slotOf, if_neg hbn]
      omega
    rw [bmap, dif_neg hbn, if_pos hj] at hr
    obtain ⟨⟨b, ip₁, st₁⟩, hr₁, hr⟩ := bind_ok hr
    obtain ⟨⟨a₂, st₂⟩, hr₂, hr⟩ := bind_ok hr
    obtain ⟨rfl, rfl, rfl⟩ := hr
    have hb : ip'.addrs indSlot = b ∧ ip'.addrs indSlot ≠ 0 := by
      rcases h.ballocAddr_spec indSlot with ⟨b', ip₃, st₃, hr', hb', hfill⟩ | ⟨hr', -⟩
      · obtain ⟨rfl, rfl, rfl⟩ := Except.ok.inj (hr₁.symm.trans hr')
        refine ⟨hb', ?_⟩
        rw [← slotVal_ind (d := st₁.data)]
        exact hfill.filled NDIRECT rfl
      · rw [hr₁] at hr'
        cases hr'
    obtain ⟨rfl, hne⟩ := hb
    rcases ballocAddr_cases hr₁ with ⟨h0, -, rfl, rfl⟩ | ⟨h0, hip, hl₁⟩
    · -- the indirect block is there
      rcases ballocEntry_cases hr₂ with ⟨-, -, rfl⟩ | ⟨he, hl₂⟩
      · exact ⟨[], .refl, ⟨fun c hc => absurd hc not_mem_nil, fun _ => rfl, fun _ => rfl⟩⟩
      · refine ⟨_, hl₂, ⟨fun c hc => ?_, fun hmap => ?_, fun _ => rfl⟩⟩
        · grind
        · rw [hslot, slotVal_entry hj h0] at hmap
          exact absurd he hmap
    · -- it is new, and so no entry was mapped
      have hzero : slotVal st.data ip (slotOf bn) = 0 := by
        rw [hslot, slotVal, dif_neg (by omega), if_neg fun hc => hc.2 h0]
      rcases ballocEntry_cases hr₂ with ⟨-, -, rfl⟩ | ⟨-, hl₂⟩
      · refine ⟨_, hl₁, ⟨fun c hc => ?_, fun hmap => absurd hzero hmap, fun hc => absurd h0 hc⟩⟩
        grind
      · refine ⟨_, hl₁.trans hl₂, ⟨fun c hc => ?_, fun hmap => absurd hzero hmap, fun hc => absurd h0 hc⟩⟩
        grind

end Bmap

/-! ## `writei` -/

/-- The number of blocks that `r` bytes from offset `off` on lie in. -/
def blocksIn (off r : Nat) : Nat := if r = 0 then 0 else (off + r - 1) / BSIZE - off / BSIZE + 1

/-- A chunk ends its block or the request. -/
theorem blocksIn_chunk {n tot : Nat} (off : Nat) (h : tot < n) :
    blocksIn off (n - tot)
      = blocksIn (off + chunk n tot off) (n - (tot + chunk n tot off)) + 1 := by
  have hchunk : chunk n tot off = min (n - tot) (1024 - off % 1024) := rfl
  rw [blocksIn, if_neg (by omega), blocksIn]
  split
  · grind
  · grind

/-- At most three blocks' bytes: three blocks, or four if the first is
not met at its start. -/
theorem blocksIn_le (off : Nat) {r : Nat} (h : r ≤ maxChunk) :
    blocksIn off r ≤ 3 ∨ blocksIn off r = 4 ∧ 0 < r ∧ off % BSIZE ≠ 0 := by
  have h' : r ≤ 3072 := h
  rw [blocksIn]
  split
  · exact .inl (zero_le 3)
  · grind

section Write

variable {sb : Superblock} {ino : Nat → Inode} {i n tot off tot' off' : Nat} {src : Source}
  {st st' : FsState} {ip ip' : Inode}

/-- Two blocks for each block of the request; one for the first if it is
mapped. -/
theorem Locked.writeLoop_foot (h : Locked sb st.data ino i ip) (hmax : off + (n - tot) ≤ MAXFILE * BSIZE)
    (hr : writeLoop sb src n tot off ip st = .ok (tot', off', ip', st')) :
    ∃ new, st'.logged = st.logged ++ new ∧ Footprint sb ip (2 * blocksIn off (n - tot)) new
      ∧ (slotVal st.data ip (slotOf (off / BSIZE)) ≠ 0 → tot < n →
        Footprint sb ip (2 * blocksIn off (n - tot) - 1) new) := by
  induction hk : n - tot using Nat.strong_induction_on generalizing tot off ip st with
  | _ k ih =>
    subst hk
    rw [writeLoop] at hr
    by_cases hlt : tot < n
    · have hpos := chunk_pos hlt off
      have hchunk : chunk n tot off ≤ n - tot := min_le_left ..
      have hblk : chunk n tot off ≤ BSIZE - off % BSIZE := min_le_right ..
      have hmod : off % BSIZE < BSIZE := mod_lt _ (by decide)
      have hlen := copyBytes_length_le src tot (chunk n tot off)
      have hoff : off / BSIZE < MAXFILE :=
        Nat.div_lt_of_lt_mul (by rw [Nat.mul_comm]; omega)
      rw [dif_pos hlt] at hr
      rw [blocksIn_chunk off hlt]
      rcases h.bmap_spec hoff with ⟨a, ip₂, st₂, hb, rfl, hf⟩ | ⟨hb, -⟩
      · obtain ⟨new, hlogs, hfoot⟩ := h.bmap_foot hoff hb
        simp only [hb, ok_bind] at hr
        split at hr
        · -- the copy fails, and the block is not logged again
          obtain ⟨htwo, hone⟩ := Footprint.step hfoot (.nil sb ip₂)
          have hsub : ∀ c ∈ new, c ∈ new ++ [slotVal st₂.data ip₂ (slotOf (off / BSIZE))] :=
            fun c hc => mem_append_left _ hc
          obtain ⟨-, -, -, rfl⟩ := hr
          exact ⟨new, hlogs.logged, (htwo.of_subset hsub).mono (by omega),
            fun hm _ => ((hone hm).of_subset hsub).mono (by omega)⟩
        · have hp := hf.piece (show off % BSIZE
            + (copyBytes src tot (chunk n tot off)).length ≤ BSIZE by omega)
          obtain ⟨new', hlogged, hfoot', -⟩ := @ih (n - (tot + chunk n tot off)) (by omega)
            (tot + chunk n tot off) (off + chunk n tot off) (st₂.logWrite _ _) ip₂ hp.locked
            (by omega) hr rfl
          obtain ⟨htwo, hone⟩ := Footprint.step hfoot hfoot'
          refine ⟨_, ?_, htwo.mono (by omega), fun hm _ => (hone hm).mono (by omega)⟩
          rw [hlogged, FsState.logWrite, hlogs.logged]
          simp
      · simp only [hb, bind, Except.bind] at hr
        cases hr
    · rw [dif_neg hlt] at hr
      simp only [Except.ok.injEq, Prod.mk.injEq] at hr
      obtain ⟨-, -, -, rfl⟩ := hr
      exact ⟨[], (append_nil _).symm, (Footprint.nil sb ip).mono (zero_le _),
        fun _ hc => absurd hc hlt⟩

/-- A chunk of `filewrite` passes at most `MAXOPBLOCKS` blocks to
`log_write`, on a file system of any size. -/
theorem writei_fits_reservation {r : Int} (h : Locked sb st.data ino i ip)
    (hmap : ∀ bn, bn * BSIZE < ip.size → slotVal st.data ip (slotOf bn) ≠ 0)
    (hoff : off < 2 ^ 32) (hn : n ≤ maxChunk)
    (hr : writei sb st i ip src off n = .ok (r, ip', st')) :
    ∃ new, st'.logged = st.logged ++ new ∧ new.toFinset.card ≤ MAXOPBLOCKS := by
  have hn' : n ≤ 3072 := hn
  rw [writei] at hr
  split at hr
  · simp_all
  · rename_i href
    split at hr
    · simp_all
    · rename_i hlong
      obtain ⟨⟨tot, off', ip₁, st₁⟩, hloop, hr⟩ := bind_ok hr
      obtain ⟨-, -, rfl⟩ := hr
      have hmax : off + (n - 0) ≤ MAXFILE * BSIZE := by omega
      obtain ⟨new, hlogged, htwo, hone⟩ := h.writeLoop_foot hmax hloop
      rw [Nat.sub_zero] at htwo hone
      refine ⟨new ++ [sb.iblock i], ?_, ?_⟩
      · rw [iupdate, FsState.logWrite, hlogged, append_assoc]
      · have hcard : new.toFinset.card ≤ 9 := by
          rcases blocksIn_le off hn with hle | ⟨hfour, hpos, hmid⟩
          · exact htwo.card.trans (by omega)
          · -- the first of four blocks is mapped
            have hfirst : off / BSIZE * BSIZE < ip.size := by grind
            have hfoot := hone (hmap _ hfirst) hpos
            rw [hfour] at hfoot
            exact hfoot.card
        rw [toFinset_append]
        exact (card_union_le ..).trans (Nat.add_le_add hcard (toFinset_card_le _))

/-- A write in place, of 24 bytes. -/
theorem writei_fits_reservation_in_place : ∃ r ip' st',
    writei fullSuper fullImage 1 fullFile (fun _ => some 7) 1000 24 = .ok (r, ip', st')
      ∧ ∃ new, st'.logged = fullImage.logged ++ new ∧ new.toFinset.card ≤ MAXOPBLOCKS := by
  have hlock : Locked fullSuper fullImage.data (fullSuper.dinode fullImage.data) 1 fullFile := by
    have h := fullImage_consistent.owned.locked (i := 1) (by decide) (by rw [fullImage_file]; decide)
    rwa [fullImage_file] at h
  have hmap : ∀ bn, bn * BSIZE < fullFile.size → slotVal fullImage.data fullFile (slotOf bn) ≠ 0 := by
    intro bn hbn
    have hbn' : bn * 1024 < 1024 := hbn
    obtain rfl : bn = 0 := by omega
    rw [fullFile_slotVal]
    decide
  have hok : (writei fullSuper fullImage 1 fullFile (fun _ => some 7) 1000 24).toOption.isSome = true := by
    decide +kernel
  cases hr : writei fullSuper fullImage 1 fullFile (fun _ => some 7) 1000 24 with
  | error e =>
    rw [hr] at hok
    cases hok
  | ok res =>
    exact ⟨_, _, _, rfl, writei_fits_reservation hlock hmap (by decide) (by decide) hr⟩

end Write

end Xv6
