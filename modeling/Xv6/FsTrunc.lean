import Xv6.FsMap

/-!
# `itrunc`

Freeing a direct block empties its slot at once, so ownership holds
after every iteration of the first loop. The second loop leaves the
entries in the indirect block while it frees what they name; ownership
is back when the indirect block itself is freed and `addrs` forgets it.
Every block freed is marked used, because no two slots share a block:
`bfree` does not panic.
-/

namespace Xv6

open List

/-- Only bitmap blocks differ. -/
structure SameData (sb : Superblock) (d d' : Disk) : Prop where
  inodes : ∀ j < sb.ninodes, sb.dinode d' j = sb.dinode d j
  frame : ∀ a, sb.IsData a → d' a = d a

/-- The blocks of `F` were freed. -/
structure FreedSet (sb : Superblock) (d d' : Disk) (F : Nat → Prop) : Prop where
  same : SameData sb d d'
  bits : ∀ c, sb.bit d' c = true ↔ sb.bit d c = true ∧ ¬F c

section Freed

variable {sb : Superblock} {d d' d'' : Disk} {F : Nat → Prop} {b : Nat}

theorem SameData.trans (h : SameData sb d d') (h' : SameData sb d' d'') : SameData sb d d'' :=
  ⟨fun j hj => (h'.inodes j hj).trans (h.inodes j hj),
    fun a ha => (h'.frame a ha).trans (h.frame a ha)⟩

theorem FreedSet.refl : FreedSet sb d d (fun _ => False) :=
  ⟨⟨fun _ _ => rfl, fun _ _ => rfl⟩, fun _ => ⟨fun h => ⟨h, not_false⟩, And.left⟩⟩

theorem Freed.freedSet (h : Freed sb d d' b) : FreedSet sb d d' (· = b) := by
  refine ⟨⟨h.inodes, h.frame⟩, fun c => ?_⟩
  grind [h.bits]

theorem FreedSet.trans {F' : Nat → Prop} (h : FreedSet sb d d' F) (h' : FreedSet sb d' d'' F') :
    FreedSet sb d d'' (fun c => F c ∨ F' c) := by
  refine ⟨h.same.trans h'.same, fun c => ?_⟩
  rw [h'.bits, h.bits, not_or, and_assoc]

theorem FreedSet.congr {F' : Nat → Prop} (h : FreedSet sb d d' F) (hF : ∀ c, F' c ↔ F c) :
    FreedSet sb d d' F' :=
  ⟨h.same, fun c => by rw [h.bits, hF]⟩

end Freed

/-! ## Emptying slots -/

section Release

variable {sb : Superblock} {d d' : Disk} {ino : Nat → Inode} {i : Nat} {ip ip' : Inode}

/-- The slots in `S` are emptied and their blocks freed. -/
theorem Locked.release (h : Locked sb d ino i ip) {S : Nat → Prop}
    (hf : FreedSet sb d d' fun c => ∃ s, S s ∧ slotVal d ip s = c ∧ c ≠ 0)
    (htype : ip'.type = ip.type) (hS : ∀ s, S s → slotVal d' ip' s = 0)
    (hother : ∀ s, ¬S s → slotVal d' ip' s = slotVal d ip s) : Locked sb d' ino i ip' := by
  refine ⟨⟨h.owned.exact.release (S := fun x => x.1 = i ∧ S x.2) ?_ ?_ ?_, fun c hc => ?_⟩, h.lt,
    htype ▸ h.type⟩
  · rintro ⟨j, s⟩ ⟨rfl, hs⟩
    unfold slots
    rw [Function.update_self, hS s hs]
    exact ite_self none
  · rintro ⟨j, s⟩ hs
    by_cases hj : j = i
    · unfold slots
      grind
    · refine slots_other h.owned (fun _ => ?_) fun a hu _ _ _ => hf.same.frame a hu.1
      grind
  · intro c
    unfold Superblock.Used
    rw [hf.bits, and_assoc]
    refine and_congr_right fun hdata => and_congr_right fun _ => ⟨?_, ?_⟩
    · grind [slots_eq_some, Function.update_self]
    · rintro hno ⟨s, hs, hslot⟩
      refine hno (i, s) ⟨rfl, hs⟩ ?_
      rw [slots_eq_some, Function.update_self]
      exact ⟨h.lt, h.type, hslot⟩
  · refine (hf.bits c).mpr ⟨h.owned.metaUsed c hc, ?_⟩
    rintro ⟨s, -, rfl, hne⟩
    have := (h.isUsed hne).1.1
    omega

/-- Clearing a direct slot. -/
theorem slotVal_clear_direct {k : Fin (NDIRECT + 1)} (hk : k ≠ indSlot)
    (hind : ip.addrs indSlot ≠ 0 → d' (ip.addrs indSlot) = d (ip.addrs indSlot)) (s : Nat) :
    slotVal d' (ip.setAddr k 0) s = if s = k then 0 else slotVal d ip s := by
  by_cases hs : s < NDIRECT + 1
  · rw [slotVal, dif_pos hs, slotVal, dif_pos hs]
    by_cases hsk : s = k
    · simp_all
    · rw [if_neg hsk, Inode.setAddr_of_ne fun h => hsk (congrArg Fin.val h)]
  · have hsk : s ≠ k := by
      omega
    rw [if_neg hsk, slotVal, dif_neg hs, slotVal, dif_neg hs]
    simp only [Inode.setAddr_of_ne hk.symm]
    split
    · rename_i h
      rw [indEntry, hind h.2, indEntry]
    · rfl

/-- Clearing the indirect slot empties the entries too. -/
theorem slotVal_clear_indirect (s : Nat) :
    slotVal d' (ip.setAddr indSlot 0) s = if s < NDIRECT then slotVal d ip s else 0 := by
  by_cases hs : s < NDIRECT + 1
  · rw [slotVal, dif_pos hs]
    by_cases hsi : s < NDIRECT
    · have hne : (⟨s, hs⟩ : Fin (NDIRECT + 1)) ≠ indSlot := fun h =>
        absurd (congrArg Fin.val h) (Nat.ne_of_lt hsi)
      rw [if_pos hsi, Inode.setAddr_of_ne hne, slotVal, dif_pos hs]
    · have heq : (⟨s, hs⟩ : Fin (NDIRECT + 1)) = indSlot :=
        Fin.ext (show s = NDIRECT by omega)
      rw [if_neg hsi, heq, Inode.setAddr_self]
  · rw [slotVal, dif_neg hs, if_neg fun h => h.2 (Inode.setAddr_self ..), if_neg (by omega)]

/-- The blocks named through the indirect slot. -/
theorem indirect_slots_iff (hne : ip.addrs indSlot ≠ 0) (c : Nat) :
    (∃ s, NDIRECT ≤ s ∧ slotVal d ip s = c ∧ c ≠ 0) ↔
      (∃ j ∈ range NINDIRECT, (d (ip.addrs indSlot)).word 4 (4 * j) = c ∧ c ≠ 0)
        ∨ c = ip.addrs indSlot := by
  constructor
  · rintro ⟨s, hs, hval, hc⟩
    by_cases hsi : s = NDIRECT
    · rw [hsi, slotVal_ind] at hval
      exact .inr hval.symm
    · rw [slotVal, dif_neg (by omega)] at hval
      split at hval
      · exact .inl ⟨s - (NDIRECT + 1), mem_range.mpr (by omega), hval, hc⟩
      · exact absurd hval.symm hc
  · rintro (⟨j, hj, hval, hc⟩ | rfl)
    · exact ⟨NDIRECT + 1 + j, by omega, (slotVal_entry (mem_range.mp hj) hne).trans hval, hc⟩
    · exact ⟨NDIRECT, Nat.le_refl _, slotVal_ind, hne⟩

end Release

/-! ## The loops -/

section Loops

variable {sb : Superblock} {st : FsState} {ino : Nat → Inode} {i : Nat} {ip : Inode}

theorem Locked.free_direct (h : Locked sb st.data ino i ip) {k : Fin (NDIRECT + 1)}
    (hk : k ≠ indSlot) (hne : ip.addrs k ≠ 0) :
    ∃ st', bfree sb st (ip.addrs k) = .ok st' ∧ SameData sb st.data st'.data
      ∧ Locked sb st'.data ino i (ip.setAddr k 0) := by
  have hslot : slotVal st.data ip k = ip.addrs k := slotVal_direct k
  have hu := h.isUsed (s := k) (hslot ▸ hne)
  rw [hslot] at hu
  obtain ⟨st', hr, hf⟩ := bfree_ok hu.1.2 hu.2
  have hval := slotVal_clear_direct hk fun hind => hf.frame _ (h.indBlock hind).1
  refine ⟨st', hr, hf.freedSet.same, h.release (S := (· = k.val)) (hf.freedSet.congr fun c => ?_)
    rfl (fun s hs => by rw [hval, if_pos hs]) fun s hs => by rw [hval, if_neg hs]⟩
  constructor
  · grind
  · grind

theorem Locked.itruncDirect_spec (h : Locked sb st.data ino i ip) (ks : List (Fin (NDIRECT + 1)))
    (hks : ∀ k ∈ ks, k ≠ indSlot) :
    ∃ st', itruncDirect sb ks ip st
        = .ok ({ ip with addrs := fun k => if k ∈ ks then 0 else ip.addrs k }, st')
      ∧ SameData sb st.data st'.data
      ∧ Locked sb st'.data ino i { ip with addrs := fun k => if k ∈ ks then 0 else ip.addrs k } := by
  induction ks generalizing ip st with
  | nil =>
    exact ⟨st, rfl, ⟨fun _ _ => rfl, fun _ _ => rfl⟩, h⟩
  | cons k ks ih =>
    have hks' : ∀ l ∈ ks, l ≠ indSlot := fun l hl => hks l (mem_cons_of_mem _ hl)
    rw [itruncDirect]
    by_cases hz : ip.addrs k = 0
    · have haddrs : (fun l => if l ∈ k :: ks then 0 else ip.addrs l)
          = fun l => if l ∈ ks then 0 else ip.addrs l := by
        funext l
        by_cases hl : l = k
        · simp [hl, hz]
        · simp [hl]
      simp_all
    · have haddrs : (fun l => if l ∈ k :: ks then 0 else ip.addrs l)
          = fun l => if l ∈ ks then 0 else (ip.setAddr k 0).addrs l := by
        funext l
        by_cases hl : l = k
        · simp [hl]
        · simp [hl]
      obtain ⟨st₁, hr, hsame, hlocked⟩ := h.free_direct (hks k mem_cons_self) hz
      obtain ⟨st', hr', hsame', hlocked'⟩ := ih hlocked hks'
      rw [if_neg hz, hr, haddrs]
      exact ⟨st', hr', hsame.trans hsame', hlocked'⟩

/-- The second loop frees what the entries name. -/
theorem itruncEntries_spec {a : Nat} {blk : Block} (ha : sb.IsData a) {js : List Nat}
    (hnodup : js.Nodup) (hblk : st.data a = blk)
    (hinj : ∀ j ∈ js, ∀ l ∈ js, blk.word 4 (4 * j) ≠ 0 →
      blk.word 4 (4 * l) = blk.word 4 (4 * j) → l = j)
    (hused : ∀ j ∈ js, blk.word 4 (4 * j) ≠ 0 → sb.Used st.data (blk.word 4 (4 * j))) :
    ∃ st', itruncEntries sb a js st = .ok st' ∧ FreedSet sb st.data st'.data
      fun c => ∃ j ∈ js, blk.word 4 (4 * j) = c ∧ c ≠ 0 := by
  induction js generalizing st with
  | nil => exact ⟨st, rfl, FreedSet.refl.congr fun c => by simp⟩
  | cons j js ih =>
    have hentry : indEntry st.data a j = blk.word 4 (4 * j) := by rw [indEntry, hblk]
    obtain ⟨hj, hnodup'⟩ := nodup_cons.mp hnodup
    have hinj' : ∀ k ∈ js, ∀ l ∈ js, blk.word 4 (4 * k) ≠ 0 →
        blk.word 4 (4 * l) = blk.word 4 (4 * k) → l = k := fun k hk l hl =>
      hinj k (mem_cons_of_mem _ hk) l (mem_cons_of_mem _ hl)
    rw [itruncEntries, hentry]
    by_cases hz : blk.word 4 (4 * j) = 0
    · rw [if_pos hz]
      obtain ⟨st', hr, hf⟩ := ih hnodup' hblk hinj' fun k hk =>
        hused k (mem_cons_of_mem _ hk)
      refine ⟨st', hr, hf.congr fun c => ?_⟩
      grind
    · obtain ⟨hdata, hbit⟩ := hused j mem_cons_self hz
      obtain ⟨st₁, hr₁, hf₁⟩ := bfree_ok hdata.2 hbit
      -- what the remaining entries name is still marked used
      have hrest : ∀ k ∈ js, blk.word 4 (4 * k) ≠ 0 →
          sb.Used st₁.data (blk.word 4 (4 * k)) := by
        intro k hk hkz
        obtain ⟨hd, hb⟩ := hused k (mem_cons_of_mem _ hk) hkz
        refine ⟨hd, ?_⟩
        rw [hf₁.bits, if_neg, hb]
        intro heq
        have := hinj j mem_cons_self k (mem_cons_of_mem _ hk) hz heq
        exact hj (this ▸ hk)
      obtain ⟨st', hr, hf⟩ := ih hnodup' ((hf₁.frame a ha).trans hblk) hinj' hrest
      rw [if_neg hz, hr₁]
      refine ⟨st', hr, (hf₁.freedSet.trans hf).congr fun c => ?_⟩
      grind

theorem Locked.itruncIndirect_spec (h : Locked sb st.data ino i ip) :
    ∃ st', itruncIndirect sb ip st = .ok (ip.setAddr indSlot 0, st')
      ∧ SameData sb st.data st'.data ∧ Locked sb st'.data ino i (ip.setAddr indSlot 0) := by
  unfold itruncIndirect
  by_cases hz : ip.addrs indSlot = 0
  · have hsame : ip.setAddr indSlot 0 = ip := by
      rw [Inode.setAddr, ← hz, Function.update_eq_self]
    rw [if_pos hz, hsame]
    exact ⟨st, rfl, ⟨fun _ _ => rfl, fun _ _ => rfl⟩, h⟩
  · have hind := h.indBlock hz
    have hentry : ∀ j ∈ range NINDIRECT, slotVal st.data ip (NDIRECT + 1 + j)
        = (st.data (ip.addrs indSlot)).word 4 (4 * j) := fun j hj =>
      slotVal_entry (mem_range.mp hj) hz
    obtain ⟨st₁, hr₁, hf₁⟩ := itruncEntries_spec hind.1 (nodup_range (n := NINDIRECT))
      (rfl : st.data (ip.addrs indSlot) = _)
      (fun j hj l hl hne heq => by
        rw [← hentry j hj] at hne heq
        rw [← hentry l hl] at heq
        have := h.slot_inj hne heq
        omega)
      (fun j hj hne => by
        rw [← hentry j hj] at hne ⊢
        exact h.isUsed hne)
    -- no entry names the indirect block itself
    have hbit : sb.bit st₁.data (ip.addrs indSlot) = true := by
      refine (hf₁.bits _).mpr ⟨hind.2, ?_⟩
      rintro ⟨j, hj, heq, -⟩
      rw [← hentry j hj] at heq
      refine h.ne_indBlock (s := NDIRECT + 1 + j) (heq ▸ hz) ?_ heq
      omega
    obtain ⟨st', hr', hf'⟩ := bfree_ok hind.1.2 hbit
    have hset := hf₁.trans hf'.freedSet
    rw [if_neg hz]
    refine ⟨st', ?_, hset.same, h.release (S := (NDIRECT ≤ ·)) (hset.congr fun c => ?_) rfl
      (fun s hs => ?_) fun s hs => ?_⟩
    · simp only [hr₁, hr', bind, Except.bind]
    · exact indirect_slots_iff hz c
    · rw [slotVal_clear_indirect (d := st.data), if_neg (by omega)]
    · rw [slotVal_clear_indirect (d := st.data), if_pos (by omega)]

/-- The in-memory inode after `itrunc`. -/
def Inode.truncated (ip : Inode) : Inode := { ip with size := 0, addrs := fun _ => 0 }

theorem Inode.truncated_fits (h : ip.Fits) : ip.truncated.Fits :=
  ⟨h.type, h.major, h.minor, h.nlink, Nat.pow_pos (by decide), fun _ => Nat.pow_pos (by decide)⟩

theorem slotVal_truncated (d : Disk) (ip : Inode) (s : Nat) : slotVal d ip.truncated s = 0 := by
  unfold slotVal Inode.truncated
  simp

/-- **`itrunc` never panics** on a locked inode: it frees every block of
the inode and leaves all slots empty. -/
theorem Locked.itrunc_spec (h : Locked sb st.data ino i ip) (hfits : ip.Fits) :
    ∃ d₁ st', itrunc sb st i ip = .ok (ip.truncated, st') ∧ SameData sb st.data d₁
      ∧ Locked sb d₁ ino i ip.truncated ∧ Updated sb d₁ st'.data i ip.truncated := by
  have hks : ∀ k ∈ directSlots, k ≠ indSlot := by decide
  have hall : ∀ k : Fin (NDIRECT + 1), k = indSlot ∨ k ∈ directSlots := by decide
  obtain ⟨st₁, hr₁, hsame₁, h₁⟩ := h.itruncDirect_spec directSlots hks
  obtain ⟨st₂, hr₂, hsame₂, h₂⟩ := h₁.itruncIndirect_spec
  have hip : { Inode.setAddr { ip with
      addrs := fun k => if k ∈ directSlots then 0 else ip.addrs k } indSlot 0 with size := 0 }
      = ip.truncated := by
    refine Inode.ext_fields rfl rfl rfl rfl rfl fun k => ?_
    by_cases hk : k = indSlot
    · exact hk ▸ Inode.setAddr_self ..
    · exact (Inode.setAddr_of_ne hk).trans (if_pos ((hall k).resolve_left hk))
  refine ⟨st₂.data, iupdate sb st₂ i ip.truncated, ?_, hsame₁.trans hsame₂,
    h₂.of_addrs (congrArg Inode.addrs hip).symm rfl, iupdate_spec (Inode.truncated_fits hfits) h.lt⟩
  simp only [itrunc, hr₁, hr₂, bind, Except.bind, hip]

end Loops

end Xv6
