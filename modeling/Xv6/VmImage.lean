import Xv6.VmUser

/-!
# Making address spaces

`proc_pagetable`, `uvmcopy` and `exec`: each ends with a whole address
space or gives back what it took, wherever an allocation fails.
-/

namespace Xv6.Vm

open Transfer Radix Multiset Ends Nat

section Fresh

variable {M : Machine} {k k' : Kmem} {t t' : Table} {pt tf : Nat}

theorem userPart_zero (h : ∀ key < NPTE ^ 3, t.get key = 0) : UserPart t 0 :=
  ⟨zero_le _, fun key hlt => absurd hlt (not_lt_zero key), fun key _ hlt =>
    h key (key_lt_of_userTop hlt)⟩

/-- An empty table goes back. -/
theorem uvmfree_empty (hrep : Rep k.cell t) (hown : Custody M.IsPage k.toStore t.nodes)
    (hname : t.name = some pt) (hzero : ∀ key < NPTE ^ 3, t.get key = 0) :
    ∃ k', uvmfree M k pt 0 = .ok k' ∧ Moves k.toStore t.nodes k'.toStore 0 := by
  have hpages : spacePages t (npg 0) = t.nodes := add_zero _
  have h := uvmfree_ok 0 (by decide) hrep (by rw [hpages]; exact hown) hname
    (userPart_zero hzero) fun key _ hkey => hzero key hkey
  rwa [hpages] at h

theorem uvmcreate_cases (k : Kmem) :
    (∃ k', uvmcreate k = (none, k') ∧ k'.toStore = k.toStore)
    ∨ ∃ pg k', uvmcreate k = (some pg, k') ∧ Rep k'.cell (.fresh pg 2 : Table)
      ∧ Moves k.toStore 0 k'.toStore {pg} := by
  unfold uvmcreate
  rcases kalloc_cases k with ⟨k', he, hk⟩ | ⟨pg, k', he, hm, -⟩
  · rw [he]
    exact .inl ⟨k', rfl, hk⟩
  · rw [he]
    refine .inr ⟨pg, _, rfl, rep_fresh (Function.update_self ..),
      hm.trans (Kmem.moves_setPage (mem_singleton_self pg) _)⟩

theorem isPage_lt {pa : Nat} (h : M.IsPage pa) : pa < 2 ^ 64 := by
  have := h.2.2
  have := M.phystop_le
  omega

theorem trampoline_lt (M : Machine) : M.trampoline < 2 ^ 64 := by
  have := M.trampoline_lt
  have := M.etext_le
  have := M.kend_le
  have := M.phystop_le
  omega

/-- `proc_pagetable`: an empty address space, or nothing. -/
theorem procPagetable_ok (hown : Custody M.IsPage k.toStore 0) (htf : tf < 2 ^ 64) :
    ∃ r k', procPagetable M k tf = .ok (r, k') ∧
      (r = none ∧ Moves k.toStore 0 k'.toStore 0 ∨
        ∃ pt t, r = some pt ∧ Rep k'.cell t ∧ t.name = some pt ∧ Space M t tf 0
          ∧ Moves k.toStore 0 k'.toStore t.nodes) := by
  unfold procPagetable
  rcases uvmcreate_cases k with ⟨k₀, he, hk⟩ | ⟨pt, k₀, he, hrep₀, hm₀⟩
  · rw [he]
    exact ⟨none, k₀, rfl, .inl ⟨rfl, hk ▸ .refl _ _⟩⟩
  · rw [he]
    have hnodes₀ : (.fresh pt 2 : Table).nodes = {pt} := Trie.nodes_fresh pt
    have hm₀' : Moves k.toStore 0 k₀.toStore (.fresh pt 2 : Table).nodes := hm₀.of_eq rfl hnodes₀.symm
    have hown₀ := hown.moves hm₀'
    obtain ⟨done, k₁, t₁, hrun₁, hbec₁, hget₁⟩ := mappages_page TRAMPOLINE (PTE_R ||| PTE_X) hrep₀
      hown₀ (Trie.name_fresh pt) (by decide) (by decide) (by rw [Trie.get_fresh]; rfl)
      (trampoline_lt M) (by decide)
    have hname₁ : t₁.name = some pt := hbec₁.name.trans (Trie.name_fresh pt)
    have hm₁ := hm₀'.trans hbec₁.moves
    have hown₁ := hown.moves hm₁
    simp only [hrun₁, ok_bind]
    cases done with
    | false =>
      obtain ⟨k', hrun', hm'⟩ := uvmfree_empty hbec₁.rep hown₁ hname₁ fun key hkey => by simp_all
      refine ⟨none, k', ?_, .inl ⟨rfl, hm₁.trans hm'⟩⟩
      simp only [Bool.false_eq_true, if_false, hrun', ok_bind]
    | true =>
      have hkeys₁ : ∀ key < NPTE ^ 3, t₁.get key = if key = USERTOP + 1
          then mapEntry M.trampoline (PTE_R ||| PTE_X) else 0 := fun key hkey => by
        rw [hget₁ key hkey, Trie.get_fresh]
        exact if_congr (and_iff_right rfl) rfl rfl
      obtain ⟨done, k₂, t₂, hrun₂, hbec₂, hget₂⟩ := mappages_page TRAPFRAME (PTE_R ||| PTE_W)
        hbec₁.rep hown₁ hname₁ (by decide) (by decide)
        (by rw [show vpn TRAPFRAME = USERTOP from rfl, hkeys₁ _ (by decide), if_neg (by omega)])
        htf (by decide)
      have hname₂ : t₂.name = some pt := hbec₂.name.trans hname₁
      have hm₂ := hm₁.trans hbec₂.moves
      have hown₂ := hown.moves hm₂
      simp only [if_true, hrun₂, ok_bind]
      cases done with
      | false =>
        have hkeys₂ : ∀ key < NPTE ^ 3, t₂.get key = t₁.get key := fun key hkey => by
          rw [hget₂ key hkey, if_neg (by simp)]
        obtain ⟨k₃, t₃, hrun₃, hcl₃, hm₃⟩ := uvmunmap_top (USERTOP + 1) hbec₂.rep hown₂
          hname₂ (le_refl _) (by
            rw [hkeys₂ _ (by decide), hkeys₁ _ (by decide), if_pos rfl]
            exact mapEntry_leaf (by decide) (by decide))
        have hm₃' := hm₂.trans hm₃
        obtain ⟨k', hrun', hm'⟩ := uvmfree_empty hcl₃.rep (hown.moves hm₃')
          (hcl₃.name.trans hname₂) fun key hkey => by
            rw [hcl₃.get key hkey, hkeys₂ key hkey, hkeys₁ key hkey]
            grind
        refine ⟨none, k', ?_, .inl ⟨rfl, hm₃'.trans hm'⟩⟩
        rw [show TRAMPOLINE = (USERTOP + 1) * 4096 from rfl]
        simp only [Bool.false_eq_true, if_false, hrun₃, hrun', ok_bind]
      | true =>
        have hkeys₂ : ∀ key < NPTE ^ 3, t₂.get key = if key = USERTOP
            then mapEntry tf (PTE_R ||| PTE_W) else t₁.get key := fun key hkey => by
          rw [hget₂ key hkey]
          exact if_congr (and_iff_right rfl) rfl rfl
        refine ⟨some pt, k₂, rfl, .inr ⟨pt, t₂, rfl, hbec₂.rep, hname₂, ⟨⟨zero_le _,
          fun key hlt => absurd hlt (not_lt_zero key), fun key _ hlt => ?_⟩, ?_, ?_,
          fun key hlt hkey => ?_⟩, hm₂⟩⟩
        · grind
        · rw [hkeys₂ _ (by decide), if_pos rfl]
        · grind
        · grind

end Fresh

/-! ## Copying -/

section Copy

variable {M : Machine} {k k' : Kmem} {t t' told : Table} {old new n : Nat} {val : Nat → Page}

/-- Flags of the pages `uvmcopy` maps. -/
abbrev oldFlags (told : Table) (key : Nat) : Nat := PTE_FLAGS (told.get key)

theorem oldFlags_lt (told : Table) (key : Nat) : oldFlags told key < 1024 :=
  mod_lt _ (by decide)

theorem oldFlags_leaf {key : Nat} (h : IsLeaf (told.get key)) (mem : Nat) :
    IsLeaf (mapEntry mem (oldFlags told key)) := by
  refine mapEntry_leaf (oldFlags_lt told key) ?_
  rw [← pteHas_flags _ (by decide)]
  exact h.2

/-- The error path of `uvmcopy`. -/
theorem uvmcopyUndo {j : Nat} (hrep : Rep k.cell t)
    (hown : Custody M.IsPage k.toStore (t.nodes + leafPages t 0 j)) (hname : t.name = some new)
    (hu : UserPart t j) :
    ∃ k' t', uvmunmap M k new 0 (j * 4096 / PGSIZE) true = .ok k' ∧ Withdrawn k t k' t' 0 j := by
  have hle : j ≤ 2 ^ 26 - 2 := hu.le
  have hcount : j * 4096 / PGSIZE = j := Nat.mul_div_cancel j (by decide)
  obtain ⟨k', t', hrun, hcl, hm⟩ := uvmunmap_ok true 0 (n := j) hrep hown hname (zero_mod _)
    (show 0 + j * 4096 ≤ 2 ^ 38 by omega) fun i hi => by
      rw [show vpn 0 = 0 from rfl, zero_add]
      exact hu.leaf i hi
  rw [hcount]
  exact ⟨k', t', hrun, hcl.rep, hcl.name, hcl.get, hm.of_eq rfl hcl.nodes.symm, hcl.nodes.ge⟩

theorem uvmcopyLoop_ok {r : Nat} (val : Nat → Page) (hname' : told.name = some old) (hu' : UserPart told n) :
    ∀ {k : Kmem} {t : Table} {j : Nat}, Rep k.cell t → Rep k.cell told →
    Custody M.IsPage k.toStore (t.nodes + leafPages t 0 j + (told.nodes + leafPages told 0 n)) →
    t.name = some new → UserPart t j → j + r = n →
    (∀ key < n, k.cell (PTE2PA (told.get key)) = val key) →
    ∃ (done : Bool) (k' : Kmem) (t' : Table), uvmcopyLoop M old new r k (j * 4096) = .ok (done, k')
      ∧ (done = true → Extends M k t k' t' j r (oldFlags told) val)
      ∧ (done = false → Withdrawn k t k' t' 0 j) := by
  induction r with
  | zero =>
    intro k t j hrep _ _ _ _ _ _
    exact ⟨true, k, t, rfl, fun _ => .refl hrep _, by simp⟩
  | succ r ih =>
    intro k t j hrep hrep' hown hname hu hn hval
    have hj : j < n := by omega
    have hle : n ≤ 2 ^ 26 - 2 := hu'.le
    have hkey : j < USERTOP := lt_of_lt_of_le hj hu'.le
    have hleaf := hu'.leaf j hj
    -- the entry of the old table
    obtain ⟨p, hwalk, hat⟩ := walk_mapped (M := M) (j * 4096) hrep'
      (fun x hx => hown.right.left.ok_owned hx) hname' (show j * 4096 < 2 ^ 38 by omega)
      (by rw [vpn_mul]; exact hleaf.ne_zero)
    have hpte : k.pte p = told.get j := by rw [hat.pte hrep', vpn_mul]
    have hvalid : pteHas (told.get j) PTE_V = true := by
      rw [pteHas_v]
      exact decide_eq_true hleaf.1
    unfold uvmcopyLoop
    rw [hwalk, ok_bind]
    simp only [hpte, hvalid, Bool.true_eq_false, if_false]
    rcases kalloc_cases k with ⟨k₁, he, hk⟩ | ⟨mem, k₁, he, hm, hlen⟩
    · rw [he]
      rw [← hk] at hrep hown
      obtain ⟨k', t', hrun, hw⟩ := uvmcopyUndo hrep hown.left hname hu
      refine ⟨false, k', t', ?_, by simp, fun _ =>
        ⟨hw.rep, hw.name, hw.get, hk ▸ hw.moves, hw.sub⟩⟩
      simp only [hrun, ok_bind]
    · rw [he]
      have hnone : t.get j = 0 := hu.none _ (le_refl _) hkey
      have hpa : PTE2PA (told.get j) ∈ leafPages told 0 n :=
        mem_leafPages.mpr ⟨j, zero_le j, by omega, rfl⟩
      have hsrc : k₁.cell (PTE2PA (told.get j)) = val j := by
        rw [hm.frame _ (notMem_zero _) (hown.right.right.notMem_free hpa), hval j hj]
      obtain ⟨done, k₂, hrun, hsucc, hfail⟩ := mapNew hrep hown.left.left hname hm hlen hkey
        hnone (oldFlags_lt told) val
      simp only [hsrc, hrun, ok_bind]
      cases done with
      | false =>
        obtain ⟨k₃, t₃, hk₃, hg⟩ := hfail rfl
        have hpages : leafPages t₃ 0 j = leafPages t 0 j :=
          leafPages_congr fun key _ _ => hg.get key
        have hown₃ := hown.left.moves (hg.moves.add (leafPages t 0 j))
        rw [← hpages] at hown₃
        obtain ⟨k', t', hundo, hw⟩ := uvmcopyUndo hg.rep hown₃ (hg.name.trans hname)
          (hg.userPart hu)
        refine ⟨false, k', t', ?_, by simp, fun _ => hw.of_grows hg⟩
        simp only [Bool.false_eq_true, if_false, hk₃, hundo, ok_bind]
      | true =>
        obtain ⟨t₂, hext, hlen₂⟩ := hsucc rfl
        have hkeys : j + 1 ≤ NPTE ^ 3 := key_lt_of_userTop hkey
        have hext₀ : Extends M k t k₂ t₂ (0 + j) 1 (oldFlags told) val := by
          rw [zero_add]
          exact hext
        have hown₂ := hext₀.owned (by omega) hown
        -- the old address space is not touched
        have hkeep : ∀ x ∈ told.nodes + leafPages told 0 n, k₂.cell x = k.cell x := by
          intro x hx
          refine hext.moves.frame x (fun hc => ?_) (hown.right.notMem_free hx)
          exact hown.notMem_left hx (mem_add.mpr (.inl hc))
        obtain ⟨done, k', t', hrun', hsucc', hfail'⟩ := ih (j := j + 1) hext.rep
          (hrep'.frame fun x hx => hkeep x (mem_add.mpr (.inl hx))) hown₂
          (hext.name.trans hname) (hext.userPart hu hkey fun key h1 h2 =>
            oldFlags_leaf (hu'.leaf key (by omega))) (by omega) fun key hlt => by
          rw [hkeep, hval key hlt]
          exact mem_add.mpr (.inr (mem_leafPages.mpr
            ⟨key, zero_le key, by omega, rfl⟩))
        have haddr : j * 4096 + PGSIZE = (j + 1) * 4096 := by
          show j * 4096 + 4096 = _
          omega
        refine ⟨done, k', t', ?_, fun hd => ?_, fun hd => ?_⟩
        · grind
        · rw [add_comm r 1]
          exact hext.trans (oldFlags_lt told) hown.left.left hkeys (hsucc' hd)
        · exact (hfail' hd).of_extends (by omega) (by rw [zero_add, hnone]) hext₀

end Copy

end Xv6.Vm
