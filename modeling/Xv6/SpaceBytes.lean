import Xv6.Ranges
import Xv6.Sbrk
import Xv6.UserMem

/-!
# The bytes of an address space

An address space is seen as a store of bytes at user addresses, zero
beyond its last page (`Holds`). Growing an address space then leaves the
store as it is, because new pages are zero, and a copy into a user page
overwrites a range of it. The pages behind the addresses are distinct,
so that nothing else changes.
-/

namespace Xv6.Vm

open List Nat

open ByteVec (Byte)
open Transfer Radix Ranges

/-- The byte at an address of the address space `t`. -/
def spaceByte (k : Kmem) (t : Table) (va : Nat) : Byte :=
  (k.cell (PTE2PA (t.get (vpn va)))).byte (va % PGSIZE)

/-- The address space `t` of `n` pages, rooted at `pt`, holds `f`. -/
structure Holds (M : Machine) (tf : Nat) (k : Kmem) (t : Table) (pt n : Nat) (f : Nat → Byte) :
    Prop where
  rep : Rep k.cell t
  name : t.name = some pt
  space : Space M t tf n
  owned : Custody M.IsPage k.toStore (spacePages t n)
  bytes : ∀ va < n * 4096, spaceByte k t va = f va
  zero : ∀ va, n * 4096 ≤ va → f va = 0

/-- The user may access the page of number `key`. -/
def UserPage (t : Table) (key : Nat) : Prop := pteHas (t.get key) PTE_U = true

section Holds

variable {M : Machine} {k k' : Kmem} {t : Table} {pt tf n key va m : Nat} {f : Nat → Byte}
  {bs : List Byte}

theorem vpn_lt_npages (h : va < n * 4096) : vpn va < n :=
  Nat.div_lt_of_lt_mul (by rw [Nat.mul_comm]; exact h)

theorem Holds.leaf_mem (h : Holds M tf k t pt n f) (hkey : key < n) :
    PTE2PA (t.get key) ∈ leafPages t 0 n ∧ M.IsPage (PTE2PA (t.get key)) := by
  have hmem : PTE2PA (t.get key) ∈ leafPages t 0 n :=
    mem_leafPages.mpr ⟨key, zero_le key, by omega, rfl⟩
  exact ⟨hmem, h.owned.right.ok_owned hmem⟩

theorem Holds.leaf_inj (h : Holds M tf k t pt n f) {key' : Nat} (hkey : key < n) (hkey' : key' < n)
    (heq : PTE2PA (t.get key) = PTE2PA (t.get key')) : key = key' :=
  leafPages_inj h.owned.right.nodup_owned (zero_le _) (by omega) (zero_le _) (by omega) heq

/-- A step that owns other pages. -/
theorem Holds.frame {A A' : Multiset Nat} (h : Holds M tf k t pt n f)
    (hown : Custody M.IsPage k.toStore (A + spacePages t n))
    (hm : Moves k.toStore A k'.toStore A') : Holds M tf k' t pt n f where
  rep := h.rep.frame fun _ hx => hown.keeps hm (Multiset.mem_add.mpr (.inl hx))
  name := h.name
  space := h.space
  owned := (hown.moves (hm.add _)).right
  bytes va hva := by
    have hmem := (h.leaf_mem (vpn_lt_npages hva)).1
    rw [← h.bytes va hva, spaceByte, spaceByte, hown.keeps hm (Multiset.mem_add.mpr (.inr hmem))]
  zero := h.zero

/-- A store to the page of number `key`. -/
theorem Holds.patch (h : Holds M tf k t pt n f) (off : Nat) (bs : List Byte) (hkey : key < n)
    (hoff : off + bs.length ≤ 4096) :
    Holds M tf (k.setPage (PTE2PA (t.get key)) ((k.cell (PTE2PA (t.get key))).patch off bs)) t pt n
      (put f (key * 4096 + off) bs) := by
  have hmem := (h.leaf_mem hkey).1
  have hst := Stores.setPage (k := k) hmem ((k.cell (PTE2PA (t.get key))).patch off bs)
  refine ⟨hst.rep h.rep h.owned, h.name, h.space, h.owned.moves (hst.moves.add_left _),
    fun va hva => ?_, fun va hva => ?_⟩
  · have hbyte := h.bytes va hva
    simp only [spaceByte, Kmem.setPage, Function.update_apply] at hbyte ⊢
    have hvpn : vpn va = va / 4096 := rfl
    have hmod : va % PGSIZE = va % 4096 := rfl
    split
    · -- the page that is written
      rename_i heq
      have hpage := h.leaf_inj (vpn_lt_npages hva) hkey heq
      rw [heq] at hbyte
      rcases lt_or_ge (va % 4096) off with hlt | hge
      · have hx : va < key * 4096 + off := by grind
        rw [ByteVec.byte_patch_out (.inl hlt), hbyte, put_out (.inl hx)]
      rcases lt_or_ge (va % 4096) (off + bs.length) with hin | hout
      · rw [ByteVec.byte_patch_in hge hin (mod_lt _ (by decide)) (f va), put, if_pos (by omega)]
        congr 1
        omega
      · rw [ByteVec.byte_patch_out (.inr hout), hbyte, put_out (.inr (by omega))]
    · rename_i hne
      have hpage : vpn va ≠ key := fun hc => hne (by rw [hc])
      rw [hbyte, put_out (by omega)]
  · have hx : key * 4096 + off + bs.length ≤ va := by grind
    rw [put_out (.inr hx), h.zero va hva]

/-! ## Through the page table -/

theorem Holds.walkaddr_user (h : Holds M tf k t pt n f) (hva : va < n * 4096)
    (hu : UserPage t (vpn va)) : walkaddr k pt va = PTE2PA (t.get (vpn va)) := by
  have hle : n ≤ 2 ^ 26 - 2 := h.space.user.le
  have hvalid : pteHas (t.get (vpn va)) PTE_V = true := by
    rw [pteHas_v]
    exact decide_eq_true (h.space.user.leaf _ (vpn_lt_npages hva)).1
  rw [walkaddr_eq h.rep (fun x hx => h.owned.left.ok_owned hx) h.name,
    if_pos ⟨show va < 2 ^ 38 by omega, hvalid, hu⟩]

theorem Holds.userTable (h : Holds M tf k t pt n f) : UserTable k pt :=
  h.space.userTable h.rep h.owned h.name

theorem Holds.userAt (h : Holds M tf k t pt n f) (hva : va < n * 4096) (hu : UserPage t (vpn va)) :
    UserAt k pt va := by
  rw [← h.userTable.walkaddr_ne_iff, h.walkaddr_user hva hu]
  exact isPage_ne_zero (h.leaf_mem (vpn_lt_npages hva)).2

theorem Holds.not_userAt (h : Holds M tf k t pt n f) (hu : ¬UserPage t (vpn va)) :
    ¬UserAt k pt va := by
  rw [← h.userTable.walkaddr_ne_iff, not_not,
    walkaddr_eq h.rep (fun x hx => h.owned.left.ok_owned hx) h.name, if_neg fun hc => hu hc.2.2]

/-- What the user reads. -/
theorem Holds.userBytes (h : Holds M tf k t pt n f) (hle : va + m ≤ n * 4096)
    (hu : ∀ i < m, UserPage t (vpn (va + i))) : userBytes k pt va m = Ranges.get f va m := by
  refine map_congr_left fun i hi => ?_
  have hi' := mem_range.mp hi
  have hlt : va + i < n * 4096 := by omega
  have hpage := (h.leaf_mem (vpn_lt_npages hlt)).2.1
  have hmod : (va + i) % PGSIZE = (va + i) % 4096 := rfl
  replace hpage : PTE2PA (t.get (vpn (va + i))) % 4096 = 0 := hpage
  rw [physAddr, h.walkaddr_user hlt (hu i hi'), ← h.bytes _ hlt, physMem, spaceByte]
  congr 1
  · congr 1
    show (_ + (va + i) % 4096) / 4096 * 4096 = _
    omega
  · grind

theorem Holds.userByte {np : Nat} {S : KSys np} {p : Fin np} (h : Holds M tf S.kmem t pt n f)
    (hpt : (S.proc p).pagetable = some pt) (hva : va < n * 4096) : userByte S p va = f va := by
  rw [← h.bytes va hva, Vm.userByte, userEntry, hpt, spaceByte]
  simp only [Option.elim]
  rw [lookup_eq h.rep (fun x hx => h.owned.left.ok_owned hx) h.name]

/-- A copy that stays in one page. -/
theorem copyout_within (h0 : walkaddr k pt va ≠ 0) (hlen : va % 4096 + bs.length ≤ 4096) :
    copyout k pt va bs = (true, k.setPage (walkaddr k pt va)
      ((k.cell (walkaddr k pt va)).patch (va % 4096) bs)) := by
  rcases eq_or_ne bs [] with rfl | hne
  · have hself : (k.cell (walkaddr k pt va)).patch (va % 4096) []
        = k.cell (walkaddr k pt va) := ByteVec.patch_eq_self (by simp)
    rw [hself, Kmem.setPage, Function.update_eq_self]
    rfl
  · obtain ⟨fuel, hfuel⟩ := exists_eq_succ_of_ne_zero (length_pos_iff.mpr hne).ne'
    have hoff : va - PGROUNDDOWN va = va % 4096 := by
      show va - va / 4096 * 4096 = _
      omega
    have hall : bs.length ≤ PGSIZE - va % 4096 := by
      show _ ≤ 4096 - _
      omega
    rw [copyout, hfuel, copyoutLoop_cons fuel hne]
    simp only [h0, if_false, hoff, take_of_length_le hall, drop_of_length_le hall,
      copyoutLoop_nil]

theorem Holds.copyout (h : Holds M tf k t pt n f) (va : Nat) (bs : List Byte)
    (hva : va < n * 4096) (hu : UserPage t (vpn va)) (hlen : va % 4096 + bs.length ≤ 4096) :
    ∃ k', copyout k pt va bs = (true, k') ∧ Stores k {PTE2PA (t.get (vpn va))} k'
      ∧ Holds M tf k' t pt n (put f va bs) := by
  have hkey := vpn_lt_npages hva
  have hw := h.walkaddr_user hva hu
  have haddr : vpn va * 4096 + va % 4096 = va := by
    show va / 4096 * 4096 + va % 4096 = va
    omega
  refine ⟨_, copyout_within ?_ hlen, ?_, ?_⟩
  · rw [hw]
    exact isPage_ne_zero (h.leaf_mem hkey).2
  · rw [hw]
    exact .setPage (Multiset.mem_singleton_self _) _
  · have hp := h.patch _ bs hkey hlen
    rwa [haddr, ← hw] at hp

end Holds

/-! ## Growing and clearing -/

section Grow

variable {M : Machine} {k k' : Kmem} {t : Table} {pt tf n key sz newsz r : Nat} {f : Nat → Byte}

/-- A page table just made. -/
theorem procPagetable_holds (hown : Custody M.IsPage k.toStore 0) (htf : tf < 2 ^ 64)
    (hrun : procPagetable M k tf = .ok (some pt, k')) :
    ∃ t, Holds M tf k' t pt 0 (fun _ => 0)
      ∧ Moves k.toStore 0 k'.toStore (spacePages t 0) := by
  obtain ⟨r, k₁, hrun₁, ⟨rfl, -⟩ | ⟨pt', t, rfl, hrep, hname, hs, hm⟩⟩ := procPagetable_ok hown htf
  · cases hrun.symm.trans hrun₁
  · cases hrun.symm.trans hrun₁
    have hm' : Moves k.toStore 0 k'.toStore (spacePages t 0) := hm.of_eq rfl (add_zero _).symm
    exact ⟨t, ⟨hrep, hname, hs, hown.moves hm', fun va hva => by omega, fun _ _ => rfl⟩, hm'⟩

/-- What `uvmalloc` adds is zero. -/
theorem Holds.uvmalloc (h : Holds M tf k t pt (npg sz) f)
    (hrun : uvmalloc M k pt sz newsz = .ok (r, k')) (hr : r ≠ 0) :
    r = max sz newsz ∧ ∃ t', Holds M tf k' t' pt (npg r) f
      ∧ Moves k.toStore (spacePages t (npg sz)) k'.toStore (spacePages t' (npg r))
      ∧ (∀ key < npg sz, t'.get key = t.get key)
      ∧ ∀ key, npg sz ≤ key → key < npg r → UserPage t' key := by
  have hcount := Space.count h.name h.owned
  have htop : npg sz ≤ 2 ^ 26 - 2 := h.space.user.le
  rcases lt_or_ge newsz sz with hlt | hle
  · rw [Vm.uvmalloc, if_pos hlt] at hrun
    cases hrun
    exact ⟨(max_eq_left hlt.le).symm, t, h, .refl .., fun _ _ => rfl, fun key h1 h2 => by omega⟩
  obtain ⟨r', k₁, t', hrun₁, ⟨rfl, he, hu⟩ | ⟨rfl, -⟩⟩ := uvmalloc_ok (M := M) newsz h.rep
    h.owned.left h.name h.space.user (show _ ≤ 2 ^ 26 - 2 by omega) hle
  · cases hrun.symm.trans hrun₁
    have hpages : npg sz + (npg r - npg sz) = npg r := Nat.add_sub_cancel' (npg_mono hle)
    have hre := he.reshapes h.space (by rwa [hpages])
    rw [hpages] at hre
    have hsame : SameBelow k t k' t' (npg sz) := .of_moves h.owned he.moves fun key hkey =>
      he.get key (key_lt_of_userTop (lt_of_lt_of_le hkey h.space.user.le)) (.inl hkey)
    refine ⟨(max_eq_right hle).symm, t', ⟨hre.rep, hre.name.trans h.name, hre.space,
      h.owned.moves hre.moves, fun va hva => ?_, fun va hva => h.zero va ?_⟩, hre.moves,
      fun key hkey => (hsame key hkey).1, fun key h1 h2 => ?_⟩
    · have hkey := vpn_lt_npages hva
      rcases lt_or_ge (vpn va) (npg sz) with hlow | hnew
      · obtain ⟨hget, hcell⟩ := hsame _ hlow
        have hva' : va < npg sz * 4096 := (div_lt_iff_lt_mul (by decide)).mp hlow
        rw [spaceByte, hget, hcell, ← spaceByte, h.bytes va hva']
      · obtain ⟨mem, hpage, hget, hval⟩ := he.new _ hnew (by omega)
        have hva' : npg sz * 4096 ≤ va := (le_div_iff_mul_le (by decide)).mp hnew
        rw [spaceByte, hget, isPage_pa hpage (userFlags_lt _), hval, h.zero va hva']
        exact ByteVec.byte_fill (mod_lt _ (by decide))
    · grind
    · obtain ⟨mem, -, hget, -⟩ := he.new key h1 (by omega)
      rw [UserPage, hget, mapEntry_u (userFlags_lt key)]
      exact show pteHas userPerm PTE_U = true by decide
  · grind

theorem clear_u_user (pte : Nat) : pteHas (pte &&& (2 ^ 64 - 1 - PTE_U)) PTE_U = false := by
  grind [pteHas, Nat.and_assoc, Nat.and_zero]

/-- `uvmclear` takes the page of number `key` from the user and changes
no byte. -/
theorem Holds.uvmclear (h : Holds M tf k t pt n f) (key : Nat) (hkey : key < n) :
    ∃ k' t', uvmclear k pt (key * 4096) = .ok k' ∧ Holds M tf k' t' pt n f
      ∧ Moves k.toStore (spacePages t n) k'.toStore (spacePages t' n)
      ∧ (∀ key' < n, key' ≠ key → t'.get key' = t.get key') ∧ ¬UserPage t' key := by
  have hle : n ≤ 2 ^ 26 - 2 := h.space.user.le
  have hkeys : ∀ {key'}, key' < n → key' < NPTE ^ 3 := fun hlt =>
    key_lt_of_userTop (lt_of_lt_of_le hlt h.space.user.le)
  obtain ⟨k', t', hrun, hre, hbec, hget⟩ := uvmclear_reshapes key h.rep h.owned h.name h.space hkey
  have hpa : ∀ key' < n, PTE2PA (t'.get key') = PTE2PA (t.get key') := fun key' hlt => by
    rw [hget key' (hkeys hlt)]
    split
    · rename_i heq
      rw [heq, clear_u_pa]
      obtain ⟨p, -, hat⟩ := walk_mapped (M := M) (key * 4096) h.rep
        (fun x hx => h.owned.left.ok_owned hx) h.name (show key * 4096 < 2 ^ 38 by omega)
        (by rw [vpn_mul]; exact (h.space.user.leaf key hkey).ne_zero)
      have hpte : k.pte p = t.get key := by rw [hat.pte h.rep, vpn_mul]
      exact hpte ▸ pte_lt k p
    · rfl
  refine ⟨k', t', hrun, ⟨hre.rep, hre.name.trans h.name, hre.space, h.owned.moves hre.moves,
    fun va hva => ?_, h.zero⟩, hre.moves, fun key' hlt hne => ?_, ?_⟩
  · have hlt := vpn_lt_npages hva
    rw [spaceByte, hpa _ hlt, h.owned.keeps hbec.moves (h.leaf_mem hlt).1, ← spaceByte,
      h.bytes va hva]
  · rw [hget key' (hkeys hlt), if_neg hne]
  · grind [UserPage, hget key (hkeys hkey), clear_u_user]

end Grow

end Xv6.Vm
