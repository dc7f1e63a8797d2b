import Xv6.VmUser

/-!
# Changing an address space

`Reshapes M tf k t n k' t' n'`: an address space of `n` pages became one
of `n'` pages, for the same trapframe, with its pages taken from and
given back to the free ones. Growing, shrinking, writing and clearing a
user flag are such changes, and they compose.
-/

namespace Xv6.Vm

open Transfer Radix Multiset Nat

structure Reshapes (M : Machine) (tf : Nat) (k : Kmem) (t : Table) (n : Nat) (k' : Kmem) (t' : Table)
    (n' : Nat) : Prop where
  rep : Rep k'.cell t'
  name : t'.name = t.name
  space : Space M t' tf n'
  moves : Moves k.toStore (spacePages t n) k'.toStore (spacePages t' n')

/-- All user pages carry the user flag. -/
def AllUser (t : Table) (n : Nat) : Prop := ∀ key < n, pteHas (t.get key) PTE_U = true

section Reshape

variable {M : Machine} {k k' k'' : Kmem} {t t' t'' : Table} {pt tf n n' n'' : Nat}

theorem Reshapes.refl (hrep : Rep k.cell t) (hs : Space M t tf n) : Reshapes M tf k t n k t n :=
  ⟨hrep, rfl, hs, .refl ..⟩

theorem Reshapes.trans (h₁ : Reshapes M tf k t n k' t' n') (h₂ : Reshapes M tf k' t' n' k'' t'' n'') :
    Reshapes M tf k t n k'' t'' n'' :=
  ⟨h₂.rep, h₂.name.trans h₁.name, h₂.space, h₁.moves.trans h₂.moves⟩

/-- An address space and the free pages are few. -/
theorem Space.count (hname : t.name = some pt) (hown : Custody M.IsPage k.toStore (spacePages t n)) :
    n + k.free.length < 2 ^ 20 := by
  have hcard := Custody.card_le hown
  have hroot : 0 < card t.nodes :=
    card_pos_iff_exists_mem.mpr ⟨pt, Trie.mem_nodes_of_name hname⟩
  rw [spacePages, card_add, card_leafPages] at hcard
  omega

theorem spacePages_add (t : Table) (n m : Nat) :
    spacePages t (n + m) = spacePages t n + leafPages t n m := by
  rw [spacePages, spacePages, leafPages_add, zero_add, add_assoc]

/-- The top of the table is as before. -/
theorem Space.of_top (hs : Space M t tf n) (hu : UserPart t' n')
    (htop : ∀ key < NPTE ^ 3, USERTOP ≤ key → t'.get key = t.get key) : Space M t' tf n' := by
  refine ⟨hu, ?_, ?_, fun key h1 h2 => ?_⟩
  · rw [htop _ (by decide) (le_refl _), hs.trapframe]
  · rw [htop _ (by decide) (le_succ _), hs.trampoline]
  · rw [htop key h2 (by omega), hs.above key h1 h2]

theorem Extends.reshapes {perm : Nat → Nat} {val : Nat → Page} {m : Nat}
    (he : Extends M k t k' t' n m perm val) (hs : Space M t tf n) (hu : UserPart t' (n + m)) :
    Reshapes M tf k t n k' t' (n + m) := by
  have htop : ∀ key < NPTE ^ 3, USERTOP ≤ key → t'.get key = t.get key := fun key hkey h =>
    he.get key hkey (.inr (le_trans hu.le h))
  have hpages : leafPages t' 0 n = leafPages t 0 n := leafPages_congr fun key _ h2 =>
    he.get key (key_lt_of_userTop (lt_of_lt_of_le (by omega) hs.user.le)) (.inl (by omega))
  refine ⟨he.rep, he.name, hs.of_top hu htop, ?_⟩
  rw [spacePages_add, spacePages, spacePages, hpages, add_right_comm]
  exact he.moves.add _

theorem Withdrawn.reshapes (hw : Withdrawn k t k' t' n 0) (hs : Space M t tf n) :
    Reshapes M tf k t n k' t' n := by
  have hget : ∀ key < NPTE ^ 3, t'.get key = t.get key := fun key hkey => by
    rw [hw.get key hkey, if_neg (by omega)]
  have hpages : leafPages t' 0 n = leafPages t 0 n := leafPages_congr fun key _ h2 =>
    hget key (key_lt_of_userTop (lt_of_lt_of_le (by omega) hs.user.le))
  refine ⟨hw.rep, hw.name, hs.of_top ⟨hs.user.le, fun key hlt => ?_, fun key h1 h2 => ?_⟩
    fun key hkey _ => hget key hkey, ?_⟩
  · rw [hget key (key_lt_of_userTop (lt_of_lt_of_le hlt hs.user.le))]
    exact hs.user.leaf key hlt
  · rw [hget key (key_lt_of_userTop h2), hs.user.none key h1 h2]
  · rw [spacePages, spacePages, hpages]
    have hm := hw.moves
    rw [leafPages, add_zero] at hm
    exact hm.add _

/-- The size after `uvmalloc` returned `r`. -/
def grown (sz r : Nat) : Nat := if r = 0 then sz else r

theorem npg_mono {a b : Nat} (h : a ≤ b) : npg a ≤ npg b := Nat.div_le_div_right (by omega)

theorem uvmalloc_reshapes (sz newsz : Nat) (hrep : Rep k.cell t)
    (hown : Custody M.IsPage k.toStore (spacePages t (npg sz))) (hname : t.name = some pt)
    (hs : Space M t tf (npg sz)) :
    ∃ r k' t', uvmalloc M k pt sz newsz = .ok (r, k')
      ∧ Reshapes M tf k t (npg sz) k' t' (npg (grown sz r)) ∧ (r ≠ 0 → r = max sz newsz)
      ∧ (AllUser t (npg sz) → AllUser t' (npg (grown sz r))) := by
  have hcount := Space.count hname hown
  by_cases hlt : newsz < sz
  · refine ⟨sz, k, t, if_pos hlt, ?_, fun _ => (max_eq_left hlt.le).symm, ?_⟩
    · rw [grown, if_neg (by omega)]
      exact .refl hrep hs
    · simp [grown]
  · have hle : sz ≤ newsz := Nat.le_of_not_lt hlt
    obtain ⟨r, k', t', hrun, ⟨rfl, he, hu⟩ | ⟨rfl, hw⟩⟩ := uvmalloc_ok (M := M) newsz hrep
      hown.left hname hs.user (show _ ≤ 2 ^ 26 - 2 by omega) hle
    · have hpages : npg sz + (npg r - npg sz) = npg r := Nat.add_sub_cancel' (npg_mono hle)
      have hgrown : npg (grown sz r) = npg r := by grind [grown]
      refine ⟨r, k', t', hrun, ?_, fun _ => (max_eq_right hle).symm, fun hall key hkey => ?_⟩
      · have h := he.reshapes hs (by rwa [hpages])
        rwa [hpages, ← hgrown] at h
      · rw [hgrown] at hkey
        by_cases hk : key < npg sz
        · rw [he.get key (key_lt_of_userTop (lt_of_lt_of_le hkey hu.le)) (.inl hk)]
          exact hall key hk
        · obtain ⟨mem, -, hget, -⟩ := he.new key (by omega) (by omega)
          rw [hget, mapEntry_u (userFlags_lt key)]
          exact show pteHas userPerm PTE_U = true by decide
    · refine ⟨0, k', t', hrun, hw.reshapes hs, fun h => absurd rfl h, fun hall key hkey => ?_⟩
      have hkey' : key < npg sz := hkey
      rw [hw.get key (key_lt_of_userTop (lt_of_lt_of_le hkey' hs.user.le)), if_neg (by omega)]
      exact hall key hkey

theorem Cleared.reshapes {m : Nat} (hc : Cleared k t k' t' n m) (hs : Space M t tf (n + m))
    (hm : Moves k.toStore (t.nodes + leafPages t n m) k'.toStore t.nodes) :
    Reshapes M tf k t (n + m) k' t' n := by
  have hle : n + m ≤ 2 ^ 26 - 2 := hs.user.le
  have hout : ∀ key < NPTE ^ 3, key < n ∨ n + m ≤ key → t'.get key = t.get key := fun key hkey h => by
    rw [hc.get key hkey, if_neg (by omega)]
  have hpages : leafPages t' 0 n = leafPages t 0 n := leafPages_congr fun key _ h2 =>
    hout key (lt_trans (by omega : key < 2 ^ 26) (by decide)) (.inl (by omega))
  refine ⟨hc.rep, hc.name, hs.of_top ⟨le_trans (le_add_right n m) hs.user.le,
    fun key hlt => ?_, fun key h1 h2 => ?_⟩ fun key hkey h =>
      hout key hkey (.inr (le_trans hs.user.le h)), ?_⟩
  · rw [hout key (lt_trans (by omega : key < 2 ^ 26) (by decide)) (.inl hlt)]
    exact hs.user.leaf key (by omega)
  · rw [hc.get key (key_lt_of_userTop h2)]
    by_cases h : key < n + m
    · rw [if_pos ⟨h1, h⟩]
    · rw [if_neg (by omega), hs.user.none key (Nat.le_of_not_lt h) h2]
  · rw [spacePages_add, spacePages, spacePages, hpages, add_right_comm, hc.nodes]
    exact hm.add _

theorem uvmdealloc_reshapes (sz newsz : Nat) (hrep : Rep k.cell t)
    (hown : Custody M.IsPage k.toStore (spacePages t (npg sz))) (hname : t.name = some pt)
    (hs : Space M t tf (npg sz)) :
    ∃ k' t', uvmdealloc M k pt sz newsz = .ok (min sz newsz, k')
      ∧ Reshapes M tf k t (npg sz) k' t' (npg (min sz newsz)) := by
  by_cases hle : sz ≤ newsz
  · rw [min_eq_left hle]
    exact ⟨k, t, uvmdealloc_ge hle, .refl hrep hs⟩
  · have hlt : newsz < sz := Nat.lt_of_not_le hle
    have hpages : npg newsz + (npg sz - npg newsz) = npg sz := Nat.add_sub_cancel' (npg_mono hlt.le)
    have hsplit := spacePages_add t (npg newsz) (npg sz - npg newsz)
    rw [hpages] at hsplit
    obtain ⟨k', t', hrun, hc, hm⟩ := uvmdealloc_lt sz newsz hlt hs.user.le hrep
      (hown.mono (by rw [hsplit, spacePages, add_right_comm]; exact Multiset.le_add_right ..)) hname
      fun key _ h2 => hs.user.leaf key h2
    rw [min_eq_right hlt.le]
    refine ⟨k', t', hrun, ?_⟩
    have h := hc.reshapes (by rwa [hpages]) hm
    rwa [hpages] at h

/-- Writing user pages. -/
theorem Stores.reshapes (h : Stores k (leafPages t 0 n) k') (hrep : Rep k.cell t)
    (hown : Custody M.IsPage k.toStore (spacePages t n)) (hs : Space M t tf n) :
    Reshapes M tf k t n k' t n :=
  ⟨h.rep hrep hown, rfl, hs, h.moves.add_left _⟩

/-- `uvmclear` of a page of the address space. -/
theorem uvmclear_reshapes (key : Nat) (hrep : Rep k.cell t)
    (hown : Custody M.IsPage k.toStore (spacePages t n)) (hname : t.name = some pt)
    (hs : Space M t tf n) (hkey : key < n) :
    ∃ k' t', uvmclear k pt (key * 4096) = .ok k' ∧ Reshapes M tf k t n k' t' n
      ∧ Becomes k t k' t' ∧ ∀ key' < NPTE ^ 3, t'.get key'
        = if key' = key then t.get key &&& (2 ^ 64 - 1 - PTE_U) else t.get key' := by
  have hle : n ≤ 2 ^ 26 - 2 := hs.user.le
  have hleaf := hs.user.leaf key hkey
  obtain ⟨p, hwalk, hat⟩ := walk_mapped (M := M) (key * 4096) hrep
    (fun x hx => hown.left.ok_owned hx) hname (show key * 4096 < 2 ^ 38 by omega)
    (by rw [vpn_mul]; exact hleaf.ne_zero)
  have hpte : k.pte p = t.get key := by rw [hat.pte hrep, vpn_mul]
  have hlt : t.get key < 2 ^ 64 := hpte ▸ pte_lt k p
  have hw : t.get key &&& (2 ^ 64 - 1 - PTE_U) < 2 ^ 64 :=
    lt_of_le_of_lt and_le_left hlt
  have hbec := Becomes.setPte hrep hown.left hat hw
  rw [vpn_mul] at hbec
  have hget : ∀ key' < NPTE ^ 3, (t.set key (t.get key &&& (2 ^ 64 - 1 - PTE_U))).get key'
      = if key' = key then t.get key &&& (2 ^ 64 - 1 - PTE_U) else t.get key' := fun key' hlt' => by
    have h := get_set_key (w := t.get key &&& (2 ^ 64 - 1 - PTE_U)) hat
      (show key * 4096 < 2 ^ 38 by omega) hlt'
    rwa [vpn_mul] at h
  have hpages : leafPages (t.set key (t.get key &&& (2 ^ 64 - 1 - PTE_U))) 0 n = leafPages t 0 n :=
    leafPages_congr_pa fun key' _ h2 => by
      rw [hget key' (lt_trans (by omega : key' < 2 ^ 26) (by decide))]
      split
      · rename_i h
        rw [clear_u_pa hlt, h]
      · rfl
  refine ⟨_, _, ?_, ⟨hbec.rep, hbec.name, hs.of_top ⟨hs.user.le, fun key' h => ?_,
    fun key' h1 h2 => ?_⟩ fun key' hlt' h => ?_, ?_⟩, hbec, hget⟩
  · unfold uvmclear
    rw [hwalk, Ends.ok_bind, ← hpte]
  · rw [hget key' (lt_trans (by omega : key' < 2 ^ 26) (by decide))]
    split
    · exact clear_u_leaf hleaf
    · exact hs.user.leaf key' h
  · rw [hget key' (key_lt_of_userTop h2), if_neg (by omega), hs.user.none key' h1 h2]
  · grind
  · rw [spacePages, spacePages, hpages]
    exact hbec.moves.add _

end Reshape

end Xv6.Vm
