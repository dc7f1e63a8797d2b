import Xv6.SpaceBytes

/-!
# What `exec` loads

The loop over the program headers leaves the bytes of the file in zeroed
memory: an overwrite for each loadable segment (`loadImage`), at the
offsets and sizes that `loadseg` is given, which are cut to 32 bits. A
file is as long as an `uint` can say.
-/

namespace Xv6.Vm

open List Nat

open ByteVec (Byte leNat leBytes)
open Transfer Radix Ranges

/-! ## The file -/

/-- Bytes of a file, as many as there are. -/
def fileBytes (content : List Byte) (off n : Nat) : List Byte := (content.drop off).take n

/-- The program header at an offset of the file. -/
def proghdrAt (content : List Byte) (off : Nat) : Proghdr :=
  Proghdr.decode (fileBytes content off proghdrSize)

section File

variable {content : List Byte} {off n m : Nat}

theorem fileBytes_length (h : off + n ≤ content.length) :
    (fileBytes content off n).length = n := by
  simp [fileBytes]
  omega

theorem fileBytes_add (content : List Byte) (off n m : Nat) :
    fileBytes content off (n + m) = fileBytes content off n ++ fileBytes content (off + n) m := by
  rw [fileBytes, take_add, drop_drop, fileBytes, fileBytes]

/-- A read that delivers all it was asked for. -/
theorem readi_full (hn : 0 < n) (h : (readi content off n).length = n) :
    off + n ≤ content.length ∧ readi content off n = fileBytes content off n := by
  unfold readi at h ⊢
  split at h
  · exact absurd h hn.ne
  · rename_i hin
    rw [if_neg hin]
    simp only [length_take, length_drop] at h
    exact ⟨by omega, rfl⟩

end File

/-! ## A segment -/

section Segment

variable {M : Machine} {k k' : Kmem} {t : Table} {pt tf n va sz offset : Nat} {content : List Byte}
  {f : Nat → Byte}

/-- From byte `i` on, a whole page at a time. -/
theorem loadsegLoop_holds (hall : AllUser t n) (hva : va % 4096 = 0) (hend : va + sz ≤ n * 4096)
    (hlen : content.length < 2 ^ 32) {rounds : Nat} :
    ∀ {k : Kmem} {i : Nat} {f : Nat → Byte}, Holds M tf k t pt n f → i % 4096 = 0 →
    rounds = (sz - i + 4095) / 4096 → (i < sz → offset + i < 2 ^ 32) →
    loadsegLoop pt va content offset sz rounds k i = .ok (true, k') →
      (sz ≤ i ∨ offset + sz ≤ content.length) ∧ Stores k (leafPages t 0 n) k'
        ∧ Holds M tf k' t pt n (put f (va + i) (fileBytes content (offset + i) (sz - i))) := by
  induction rounds with
  | zero =>
    intro k i f h hi hrounds hoff hrun
    cases hrun
    have hdone : sz - i = 0 := by omega
    rw [hdone, fileBytes, take_zero, put_nil]
    exact ⟨.inl (by omega), .refl .., h⟩
  | succ rounds ih =>
    intro k i f h hi hrounds hoff hrun
    have hlt : i < sz := by omega
    have hin : va + i < n * 4096 := by omega
    have hle : n ≤ 2 ^ 26 - 2 := h.space.user.le
    have hkey := vpn_lt_npages hin
    have hpa := h.walkaddr_user hin (hall _ hkey)
    have hpage := h.leaf_mem hkey
    have hne : walkaddr k pt (va + i) ≠ 0 := hpa ▸ isPage_ne_zero hpage.2
    have haddr : vpn (va + i) * 4096 + 0 = va + i := by
      show (va + i) / 4096 * 4096 + 0 = va + i
      omega
    unfold loadsegLoop at hrun
    simp only [mod_eq_of_lt (show va + i < 2 ^ 64 by omega),
      mod_eq_of_lt (hoff hlt), hne, if_false] at hrun
    generalize hm : (if sz - i < PGSIZE then sz - i else PGSIZE) = m at hrun
    replace hm : m = min (sz - i) 4096 := by grind
    rcases eq_or_ne (readi content (offset + i) m).length m with hfull | hshort
    · obtain ⟨hfile, hdata⟩ := readi_full (by omega) hfull
      simp only [hfull, ne_eq, not_true_eq_false, if_false] at hrun
      rw [hdata] at hfull hrun
      have hst := Stores.setPage (k := k) hpage.1
        ((k.cell (PTE2PA (t.get (vpn (va + i))))).patch 0 (fileBytes content (offset + i) m))
      have h₁ := h.patch 0 (fileBytes content (offset + i) m) hkey (by omega)
      rw [haddr] at h₁
      rw [hpa] at hrun
      obtain ⟨hrest, hst', h₂⟩ := ih (i := i + 4096) h₁ (by omega) (by omega) (by omega) hrun
      refine ⟨.inr (by omega), hst.trans hst', ?_⟩
      -- this page and the rest
      have hsplit : fileBytes content (offset + i) (sz - i)
          = fileBytes content (offset + i) m
            ++ fileBytes content (offset + (i + 4096)) (sz - (i + 4096)) := by
        rcases lt_or_ge (sz - i) 4096 with hlast | hmore
        · rw [show m = sz - i by omega, show sz - (i + 4096) = 0 by omega]
          simp [fileBytes]
        · rw [show m = 4096 by omega, ← Nat.add_assoc, ← fileBytes_add, ← Nat.sub_sub,
            Nat.add_sub_cancel' hmore]
      rw [hsplit, put_append, hfull]
      rcases lt_or_ge (sz - i) 4096 with hlast | hmore
      · rw [show sz - (i + 4096) = 0 by omega] at h₂ ⊢
        simpa [fileBytes] using h₂
      · rw [show va + i + m = va + (i + 4096) by omega]
        exact h₂
    · grind

/-- What `loadseg` leaves when it succeeds. -/
theorem loadseg_holds (h : Holds M tf k t pt n f) (hall : AllUser t n) (hva : va % 4096 = 0)
    (hend : va + sz ≤ n * 4096) (hlen : content.length < 2 ^ 32) (hoff : offset < 2 ^ 32)
    (hrun : loadseg k pt va content offset sz = .ok (true, k')) :
    (sz = 0 ∨ offset + sz ≤ content.length) ∧ Stores k (leafPages t 0 n) k'
      ∧ Holds M tf k' t pt n (put f va (fileBytes content offset sz)) := by
  obtain ⟨hfile, hst, h'⟩ := loadsegLoop_holds hall hva hend hlen h (zero_mod _)
    (show _ = (sz - 0 + 4095) / 4096 from rfl) (fun _ => hoff) hrun
  exact ⟨hfile.imp_left le_zero.mp, hst, h'⟩

end Segment

/-! ## All segments -/

/-- What is required of a loadable segment, with `sz` bytes loaded in the
end. -/
structure Fits (content : List Byte) (ph : Proghdr) (sz : Nat) : Prop where
  aligned : ph.vaddr % PGSIZE = 0
  inside : ph.vaddr + ph.memsz ≤ sz
  sizes : ph.filesz ≤ ph.memsz
  file : ph.filesz = 0 ∨ ph.off % 2 ^ 32 + ph.filesz ≤ content.length

/-- Where the loop reads its headers. -/
def headerOffs : Nat → Nat → List Nat
  | 0, _ => []
  | rounds + 1, off => off % 2 ^ 32 :: headerOffs rounds (off + proghdrSize)

/-- The segment of the header at `off` over what is loaded already. -/
def loadSegment (content : List Byte) (f : Nat → Byte) (off : Nat) : Nat → Byte :=
  let ph := proghdrAt content off
  if ph.type = ELF_PROG_LOAD then put f ph.vaddr (fileBytes content (ph.off % 2 ^ 32) ph.filesz)
  else f

/-- All segments over what is loaded already. -/
def loadImage (content : List Byte) (offs : List Nat) (f : Nat → Byte) : Nat → Byte :=
  offs.foldl (loadSegment content) f

/-- The headers that were read, in a file of which `sz` bytes were
loaded. -/
def Accepted (content : List Byte) (offs : List Nat) (sz : Nat) : Prop :=
  ∀ off ∈ offs, off + proghdrSize ≤ content.length
    ∧ ((proghdrAt content off).type = ELF_PROG_LOAD → Fits content (proghdrAt content off) sz)

section Load

variable {M : Machine} {k k' : Kmem} {t : Table} {pt tf off sz sz' : Nat} {content : List Byte}
  {f : Nat → Byte}

theorem headerOffs_eq (n off : Nat) : headerOffs n off
    = (range n).map fun i => (off + proghdrSize * i) % 2 ^ 32 := by
  induction n generalizing off with
  | zero => rfl
  | succ n ih =>
    rw [headerOffs, ih, range_succ_eq_map, map_cons, map_map]
    refine congrArg₂ cons rfl (map_congr_left fun i _ => ?_)
    grind

theorem Fits.mono {ph : Proghdr} (h : Fits content ph sz) (hle : sz ≤ sz') : Fits content ph sz' :=
  ⟨h.aligned, h.inside.trans hle, h.sizes, h.file⟩

theorem Holds.size_lt {sz : Nat} (h : Holds M tf k t pt (npg sz) f) : sz < 2 ^ 32 := by
  have := Space.count h.name h.owned
  exact size_lt_of_npg _ (by omega)

theorem le_npg (sz : Nat) : sz ≤ npg sz * 4096 := by
  show sz ≤ (sz + 4095) / 4096 * 4096
  omega

/-- A loadable segment: pages up to its end, then its bytes. -/
theorem segment_holds {ph : Proghdr} {r : Nat} {k₁ : Kmem} (h : Holds M tf k t pt (npg sz) f)
    (hall : AllUser t (npg sz)) (hlen : content.length < 2 ^ 32) (hsizes : ¬ph.memsz < ph.filesz)
    (hwrap : ¬(ph.vaddr + ph.memsz) % 2 ^ 64 < ph.vaddr) (hvaddr : ph.vaddr < 2 ^ 64)
    (hmemsz : ph.memsz < 2 ^ 64)
    (hgrow : uvmalloc M k pt sz ((ph.vaddr + ph.memsz) % 2 ^ 64) = .ok (r, k₁)) (hr : r ≠ 0)
    (hmod : ph.vaddr % PGSIZE = 0)
    (hload : loadseg k₁ pt ph.vaddr content (ph.off % 2 ^ 32) (ph.filesz % 2 ^ 32)
      = .ok (true, k')) :
    sz ≤ r ∧ Fits content ph r ∧ ∃ t', AllUser t' (npg r)
      ∧ Holds M tf k' t' pt (npg r)
        (put f ph.vaddr (fileBytes content (ph.off % 2 ^ 32) ph.filesz))
      ∧ Moves k.toStore (spacePages t (npg sz)) k'.toStore (spacePages t' (npg r)) := by
  obtain ⟨hmax, t', h₁, hm₁, hold, hnew⟩ := h.uvmalloc hgrow hr
  have hall' : AllUser t' (npg r) := fun key hkey => by
    rcases lt_or_ge key (npg sz) with hlow | hge
    · rw [hold key hlow]
      exact hall key hlow
    · exact hnew key hge hkey
  have hnowrap : (ph.vaddr + ph.memsz) % 2 ^ 64 = ph.vaddr + ph.memsz := by omega
  rw [hnowrap] at hmax
  have hend : ph.vaddr + ph.memsz ≤ r := hmax ▸ le_max_right ..
  have hsmall : ph.filesz % 2 ^ 32 = ph.filesz := mod_eq_of_lt (by
    have := h₁.size_lt
    omega)
  rw [hsmall] at hload
  have hpages := le_npg r
  obtain ⟨hfile, hst, h₂⟩ := loadseg_holds h₁ hall' hmod (by omega) hlen
    (mod_lt _ (by decide)) hload
  exact ⟨hmax ▸ Nat.le_max_left .., ⟨hmod, hend, Nat.le_of_not_lt hsizes, hfile⟩, t', hall', h₂,
    hm₁.trans (hst.moves.add_left _)⟩

/-- The loop over the program headers. -/
theorem loadLoop_holds (hlen : content.length < 2 ^ 32) {rounds : Nat} :
    ∀ {k : Kmem} {t : Table} {off sz : Nat} {f : Nat → Byte}, Holds M tf k t pt (npg sz) f →
    AllUser t (npg sz) → loadLoop M pt content rounds k off sz = .ok (true, sz', k') →
      sz ≤ sz' ∧ Accepted content (headerOffs rounds off) sz' ∧ ∃ t',
        Holds M tf k' t' pt (npg sz') (loadImage content (headerOffs rounds off) f)
        ∧ AllUser t' (npg sz') ∧ Moves k.toStore (spacePages t (npg sz)) k'.toStore (spacePages t' (npg sz')) := by
  induction rounds with
  | zero =>
    intro k t off sz f h hall hrun
    cases hrun
    exact ⟨le_refl _, fun o ho => (not_mem_nil ho).elim, t, h, hall, .refl ..⟩
  | succ rounds ih =>
    intro k t off sz f h hall hrun
    unfold loadLoop at hrun
    rcases ne_or_eq (readi content (off % 2 ^ 32) proghdrSize).length proghdrSize with hs | hfull
    · grind
    obtain ⟨hfile, hbytes⟩ := readi_full (by decide) hfull
    simp only [hfull, ne_eq, not_true_eq_false, if_false] at hrun
    rw [hbytes, ← proghdrAt] at hrun
    have hvaddr : (proghdrAt content (off % 2 ^ 32)).vaddr < 2 ^ 64 := field_lt _ 16 8
    have hmemsz : (proghdrAt content (off % 2 ^ 32)).memsz < 2 ^ 64 := field_lt _ 40 8
    have hnext : ∀ {r : Nat} {k₁ : Kmem} {t₁ : Table} {g : Nat → Byte}, sz ≤ r →
        g = loadSegment content f (off % 2 ^ 32) →
        ((proghdrAt content (off % 2 ^ 32)).type = ELF_PROG_LOAD →
          Fits content (proghdrAt content (off % 2 ^ 32)) r) →
        Holds M tf k₁ t₁ pt (npg r) g → AllUser t₁ (npg r) →
        Moves k.toStore (spacePages t (npg sz)) k₁.toStore (spacePages t₁ (npg r)) →
        loadLoop M pt content rounds k₁ (off + proghdrSize) r = .ok (true, sz', k') →
        sz ≤ sz' ∧ Accepted content (headerOffs (rounds + 1) off) sz' ∧ ∃ t',
          Holds M tf k' t' pt (npg sz') (loadImage content (headerOffs (rounds + 1) off) f)
          ∧ AllUser t' (npg sz') ∧ Moves k.toStore (spacePages t (npg sz)) k'.toStore (spacePages t' (npg sz')) := by
      rintro r k₁ t₁ g hle rfl hfits h₁ hall₁ hm₁ hrun₁
      obtain ⟨hle', hacc, t', h', hall', hm'⟩ := ih h₁ hall₁ hrun₁
      refine ⟨hle.trans hle', fun o ho => ?_, t', h', hall', hm₁.trans hm'⟩
      rcases mem_cons.mp ho with rfl | ho
      · exact ⟨hfile, fun htype => (hfits htype).mono hle'⟩
      · exact hacc o ho
    rcases ne_or_eq (proghdrAt content (off % 2 ^ 32)).type ELF_PROG_LOAD with htype | htype
    · simp only [htype, not_false_eq_true, if_true] at hrun
      exact hnext (le_refl _) (if_neg htype).symm (fun hc => absurd hc htype) h hall
        (.refl ..) hrun
    simp only [htype, not_true_eq_false, if_false] at hrun
    split at hrun
    · cases hrun
    rename_i hsizes
    split at hrun
    · cases hrun
    rename_i hwrap
    obtain ⟨⟨r, k₁⟩, hgrow, hrun⟩ := Ends.bind_ok hrun
    rcases eq_or_ne r 0 with rfl | hr
    · cases hrun
    simp only [hr, if_false] at hrun
    split at hrun
    · cases hrun
    rename_i hmod
    obtain ⟨⟨done, k₂⟩, hload, hrun⟩ := Ends.bind_ok hrun
    cases done with
    | false => cases hrun
    | true =>
      obtain ⟨hle, hfits, t₁, hall₁, h₁, hm₁⟩ := segment_holds h hall hlen hsizes hwrap hvaddr
        hmemsz hgrow hr (not_not.mp hmod) hload
      exact hnext hle (if_pos htype).symm (fun _ => hfits) h₁ hall₁ hm₁ hrun

end Load

end Xv6.Vm
