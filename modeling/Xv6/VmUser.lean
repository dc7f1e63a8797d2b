import Xv6.VmSpace

/-!
# User memory

What the kernel reads and writes through a user table. Only pages below
the size of the address space can be reached: the trampoline and the
trapframe are mapped without `PTE_U`. Distinct pages of the allocatable
range bound every size by 4 GiB.
-/

namespace Xv6.Vm

open Transfer Radix Multiset Nat

section Count

variable {M : Machine} {s : Store Nat Page} {A : Multiset Nat}

/-- The allocatable range has at most `2 ^ 20` pages. -/
theorem Custody.card_le (h : Custody M.IsPage s A) :
    s.free.length + card A ≤ 2 ^ 20 := by
  have hinj : Set.InjOn (· / 4096) {x | M.IsPage x} := fun x hx y hy hxy => by
    have h1 : x % 4096 = 0 := hx.1
    have h2 : y % 4096 = 0 := hy.1
    grind
  have hcard : card ((s.free : Multiset Nat) + A)
      = (map (· / 4096) ((s.free : Multiset Nat) + A)).toFinset.card := by
    rw [toFinset_card_of_nodup, card_map]
    exact h.nodup.map_on fun x hx y hy hxy => hinj (h.ok x hx) (h.ok y hy) hxy
  have hsub : (map (· / 4096) ((s.free : Multiset Nat) + A)).toFinset
      ⊆ Finset.Ico ((M.kend + 4095) / 4096) ((M.kend + 4095) / 4096 + 2 ^ 20) := by
    intro y hy
    obtain ⟨x, hx, rfl⟩ := mem_map.mp (mem_toFinset.mp hy)
    obtain ⟨h1, h2, h3⟩ := h.ok x hx
    have h1' : x % 4096 = 0 := h1
    have := M.small
    rw [Finset.mem_Ico]
    omega
  have hle := Finset.card_le_card hsub
  rw [← hcard, card_Ico, card_add, coe_card] at hle
  omega

end Count

/-! ## Stores -/

/-- Only pages of `A` were written, and nothing was allocated. -/
structure Stores (k : Kmem) (A : Multiset Nat) (k' : Kmem) : Prop where
  free : k'.free = k.free
  frame : ∀ x ∉ A, k'.cell x = k.cell x

section Stores

variable {k k' k'' : Kmem} {A : Multiset Nat}

theorem Stores.refl (k : Kmem) (A : Multiset Nat) : Stores k A k := ⟨rfl, fun _ _ => rfl⟩

theorem Stores.trans (h₁ : Stores k A k') (h₂ : Stores k' A k'') : Stores k A k'' :=
  ⟨h₂.free.trans h₁.free, fun x hx => (h₂.frame x hx).trans (h₁.frame x hx)⟩

theorem Stores.setPage {pa : Nat} (h : pa ∈ A) (v : Page) : Stores k A (k.setPage pa v) :=
  ⟨rfl, fun x hx => Function.update_of_ne (fun hc : x = pa => hx (hc ▸ h)) ..⟩

theorem Stores.moves (h : Stores k A k') : Moves k.toStore A k'.toStore A :=
  ⟨by rw [h.free], fun x hx _ => h.frame x hx⟩

end Stores

section User

variable {M : Machine} {k k' : Kmem} {t : Table} {pt tf n va : Nat}

/-- `walkaddr` in terms of the table. -/
theorem walkaddr_eq (hrep : Rep k.cell t) (hok : ∀ x ∈ t.nodes, M.IsPage x)
    (hname : t.name = some pt) :
    walkaddr k pt va = if va < MAXVA ∧ pteHas (t.get (vpn va)) PTE_V = true
        ∧ pteHas (t.get (vpn va)) PTE_U = true then PTE2PA (t.get (vpn va)) else 0 := by
  unfold walkaddr
  by_cases hva : va < MAXVA
  · rw [walk_false hrep hok hname hva]
    cases hb : t.bottom (vpn va) with
    | none =>
      have hzero : t.get (vpn va) = 0 := by
        by_contra hc
        obtain ⟨b, hb'⟩ := Trie.hasPath_iff.mp (Trie.hasPath_of_get_ne hc)
        rw [hb] at hb'
        cases hb'
      rw [hzero, if_neg fun hc => by rw [pteHas_zero] at hc; cases hc.2.1]
      rfl
    | some b =>
      have hpte : k.pte ⟨b, PX 0 va⟩ = t.get (vpn va) :=
        At.pte ⟨b, hb, rfl⟩ hrep
      simp only [Option.map_some, hpte]
      cases hV : pteHas (t.get (vpn va)) PTE_V <;> cases hU : pteHas (t.get (vpn va)) PTE_U <;>
        simp [hva]
  · rw [walk, if_pos (Nat.le_of_not_lt hva), if_neg fun hc => hva hc.1]

/-- The user can reach only pages below the size. -/
theorem Space.lt_of_user (hs : Space M t tf n) {key : Nat} (hkey : key < NPTE ^ 3)
    (hu : pteHas (t.get key) PTE_U = true) : key < n := by
  by_contra hn
  have hclear : pteHas (t.get key) PTE_U = false := by
    rcases lt_or_ge key USERTOP with h | h
    · rw [hs.user.none key (Nat.le_of_not_lt hn) h, pteHas_zero]
    · rcases eq_or_lt_of_le h with h | h
      · rw [← h, hs.trapframe, mapEntry_u (by decide)]
        rfl
      · rcases eq_or_lt_of_le (succ_le_of_lt h) with h | h
        · rw [← h, hs.trampoline, mapEntry_u (by decide)]
          rfl
        · rw [hs.above key h hkey, pteHas_zero]
  rw [hclear] at hu
  cases hu

theorem vpn_lt_of_lt (h : va < MAXVA) : vpn va < NPTE ^ 3 := by
  have h' : va < 2 ^ 38 := h
  show va / 4096 < 512 ^ 3
  omega

theorem Space.walkaddr_mem (hs : Space M t tf n) (hrep : Rep k.cell t)
    (hok : ∀ x ∈ t.nodes, M.IsPage x) (hname : t.name = some pt) (hne : walkaddr k pt va ≠ 0) :
    walkaddr k pt va ∈ leafPages t 0 n := by
  rw [walkaddr_eq hrep hok hname] at hne ⊢
  split at hne
  · rename_i h
    rw [if_pos h]
    have hlt := hs.lt_of_user (vpn_lt_of_lt h.1) h.2.2
    exact mem_leafPages.mpr ⟨vpn va, zero_le _, by omega, rfl⟩
  · exact absurd rfl hne

/-- Stores to user pages keep the table. -/
theorem Stores.rep (h : Stores k (leafPages t 0 n) k') (hrep : Rep k.cell t)
    (hown : Custody M.IsPage k.toStore (spacePages t n)) : Rep k'.cell t :=
  hrep.frame fun x hx => h.frame x fun hc => hown.notMem_left hc hx

theorem copyoutLoop_stores (hs : Space M t tf n) (hname : t.name = some pt) {fuel : Nat} :
    ∀ {k : Kmem} {va : Nat} {src : List ByteVec.Byte}, Rep k.cell t →
    Custody M.IsPage k.toStore (spacePages t n) →
    Stores k (leafPages t 0 n) (copyoutLoop pt fuel k va src).2 := by
  induction fuel with
  | zero =>
    intro k va src _ _
    cases src <;> exact .refl ..
  | succ fuel ih =>
    intro k va src hrep hown
    cases src with
    | nil => exact .refl ..
    | cons b src =>
      unfold copyoutLoop
      by_cases h0 : walkaddr k pt (PGROUNDDOWN va) = 0
      · simp only [h0, if_true]
        exact .refl ..
      · simp only [h0, if_false]
        have hmem := hs.walkaddr_mem hrep (fun x hx => hown.left.ok_owned hx) hname h0
        have hst := Stores.setPage (k := k) hmem
          ((k.cell (walkaddr k pt (PGROUNDDOWN va))).patch (va - PGROUNDDOWN va)
            ((b :: src).take (PGSIZE - (va - PGROUNDDOWN va))))
        exact hst.trans (ih (hst.rep hrep hown) (hown.moves (hst.moves.add_left _)))

/-- `copyout` writes user pages only. -/
theorem copyout_stores (va : Nat) (hs : Space M t tf n) (hname : t.name = some pt) (hrep : Rep k.cell t)
    (hown : Custody M.IsPage k.toStore (spacePages t n)) (src : List ByteVec.Byte) :
    Stores k (leafPages t 0 n) (copyout k pt va src).2 :=
  copyoutLoop_stores hs hname hrep hown

end User

end Xv6.Vm
