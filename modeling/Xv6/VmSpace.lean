import Xv6.Exec
import Xv6.VmMap

/-!
# User address spaces

A user table maps the pages below a size, and the trampoline and the
trapframe at the top. The functions of `vm.c` that grow, shrink, copy
and free user memory are described on such tables. Page numbers stay
far below the top because every user page is a page of physical memory
of its own: what bounds a growing table is the number of free pages.
-/

namespace Xv6.Vm

open Transfer Radix Multiset Ends Nat

/-- The number of pages that hold `sz` bytes. -/
def npg (sz : Nat) : Nat := (sz + 4095) / 4096

/-- The number of user pages below the trapframe. -/
abbrev USERTOP : Nat := 2 ^ 26 - 2

theorem pgroundup_npg {sz : Nat} (h : sz + 4096 ≤ 2 ^ 64) : PGROUNDUP sz = npg sz * 4096 :=
  pgroundup_eq h

/-- The first `n` user pages are mapped, the others not. -/
structure UserPart (t : Table) (n : Nat) : Prop where
  le : n ≤ USERTOP
  leaf : ∀ key < n, IsLeaf (t.get key)
  none : ∀ key, n ≤ key → key < USERTOP → t.get key = 0

variable {key mem v m : Nat} {t'' : Table} {k'' : Kmem}

section Frame

variable {M : Machine} {k k' : Kmem} {t t' : Table} {B : Multiset Nat}

/-- What is owned besides the table stays as it is. -/
theorem Becomes.frame (h : Becomes k t k' t') (hown : Custody M.IsPage k.toStore (t.nodes + B)) :
    Custody M.IsPage k'.toStore (t'.nodes + B) ∧ ∀ x ∈ B, k'.cell x = k.cell x :=
  ⟨hown.moves (h.moves.add B), fun _ hx => hown.keeps h.moves hx⟩

theorem key_lt_of_userTop (h : key < USERTOP) : key < NPTE ^ 3 :=
  lt_trans h (by decide)

end Frame

/-! ## Shrinking -/

section Dealloc

variable {M : Machine} {k : Kmem} {t : Table} {pt : Nat}

theorem intToUint64_of_lt {n : Nat} (h : n < 2 ^ 31) : intToUint64 n = n := by
  rw [intToUint64, mod_eq_of_lt (by omega), if_pos h]

theorem vpn_mul (n : Nat) : vpn (n * 4096) = n := Nat.mul_div_cancel n (by decide)

theorem uvmdealloc_ge {oldsz newsz : Nat} (h : oldsz ≤ newsz) :
    uvmdealloc M k pt oldsz newsz = .ok (oldsz, k) := if_pos h

theorem uvmdealloc_lt (oldsz newsz : Nat) (h : newsz < oldsz) (hold : npg oldsz ≤ USERTOP)
    (hrep : Rep k.cell t)
    (hown : Custody M.IsPage k.toStore
      (t.nodes + leafPages t (npg newsz) (npg oldsz - npg newsz)))
    (hname : t.name = some pt)
    (hleaf : ∀ key, npg newsz ≤ key → key < npg oldsz → IsLeaf (t.get key)) :
    ∃ k' t', uvmdealloc M k pt oldsz newsz = .ok (newsz, k')
      ∧ Cleared k t k' t' (npg newsz) (npg oldsz - npg newsz)
      ∧ Moves k.toStore (t.nodes + leafPages t (npg newsz) (npg oldsz - npg newsz)) k'.toStore
        t.nodes := by
  have hold' : (oldsz + 4095) / 4096 ≤ 2 ^ 26 - 2 := hold
  have htop : npg oldsz ≤ 2 ^ 26 - 2 := hold
  have hpos : npg newsz ≤ npg oldsz := by
    show (newsz + 4095) / 4096 ≤ (oldsz + 4095) / 4096
    omega
  have h1 : PGROUNDUP oldsz = npg oldsz * 4096 := pgroundup_npg (by omega)
  have h2 : PGROUNDUP newsz = npg newsz * 4096 := pgroundup_npg (by omega)
  rw [uvmdealloc, if_neg (not_le.mpr h), h1, h2]
  by_cases hlt : npg newsz < npg oldsz
  · have hcount : intToUint64 ((npg oldsz * 4096 - npg newsz * 4096) / PGSIZE)
        = npg oldsz - npg newsz := by
      have : (npg oldsz * 4096 - npg newsz * 4096) / 4096 = npg oldsz - npg newsz := by omega
      rw [show PGSIZE = 4096 from rfl, this]
      exact intToUint64_of_lt (by omega)
    obtain ⟨k', t', hrun, hcl, hm⟩ := uvmunmap_ok true (npg newsz * 4096) hrep
      (by rwa [vpn_mul]) hname (mul_mod_left ..)
      (show npg newsz * 4096 + (npg oldsz - npg newsz) * 4096 ≤ 2 ^ 38 by omega)
      fun j hj => by grind [vpn_mul]
    rw [vpn_mul] at hcl hm
    refine ⟨k', t', ?_, hcl, hm⟩
    rw [if_pos (by omega)]
    simp only [hcount, hrun]
    rfl
  · have heq : npg oldsz - npg newsz = 0 := by omega
    rw [if_neg (by omega), heq]
    refine ⟨k, t, rfl, ⟨hrep, rfl, rfl, fun key _ => ?_⟩, .of_eq (.refl _ t.nodes) (add_zero _).symm
      rfl⟩
    rw [if_neg (by omega)]

end Dealloc

/-! ## Growing -/

/-- Flags of the pages `uvmalloc` maps. -/
abbrev userPerm : Nat := PTE_W ||| PTE_X ||| PTE_R ||| PTE_U

section Alloc

variable {M : Machine} {k k₁ k' : Kmem} {t t' : Table} {pt : Nat} {perm : Nat → Nat}
  {val : Nat → Page}

/-- `m` pages of their own were mapped from page number `v` on, with the
given flags and contents. -/
structure Extends (M : Machine) (k : Kmem) (t : Table) (k' : Kmem) (t' : Table) (v m : Nat)
    (perm : Nat → Nat) (val : Nat → Page) : Prop where
  rep : Rep k'.cell t'
  name : t'.name = t.name
  get : ∀ key < NPTE ^ 3, key < v ∨ v + m ≤ key → t'.get key = t.get key
  new : ∀ key, v ≤ key → key < v + m → ∃ mem, M.IsPage mem ∧ t'.get key = mapEntry mem (perm key)
    ∧ k'.cell mem = val key
  moves : Moves k.toStore t.nodes k'.toStore (t'.nodes + leafPages t' v m)
  sub : t.nodes ≤ t'.nodes

theorem Extends.refl (hrep : Rep k.cell t) (v : Nat) : Extends M k t k t v 0 perm val :=
  ⟨hrep, rfl, fun _ _ _ => rfl, fun key h1 h2 => by omega, .of_eq (.refl _ _) rfl (add_zero _).symm,
    le_rfl⟩

theorem isPage_pa {f : Nat} (h : M.IsPage mem) (hf : f < 1024) : PTE2PA (mapEntry mem f) = mem := by
  have := h.2.2
  have := M.phystop_le
  exact mapEntry_pa (by omega) h.1 hf

theorem Extends.trans {m' : Nat} (hperm : ∀ key, perm key < 1024)
    (hown : Custody M.IsPage k.toStore t.nodes) (hkeys : v + m ≤ NPTE ^ 3)
    (h₁ : Extends M k t k' t' v m perm val) (h₂ : Extends M k' t' k'' t'' (v + m) m' perm val) :
    Extends M k t k'' t'' v (m + m') perm val := by
  have hown' := hown.moves h₁.moves
  have hsame : ∀ key, v ≤ key → key < v + m → t''.get key = t'.get key := fun key h1 h2 =>
    h₂.get key (by omega) (.inl h2)
  refine ⟨h₂.rep, h₂.name.trans h₁.name, fun key hkey hout => ?_, fun key h1 h2 => ?_, ?_,
    h₁.sub.trans h₂.sub⟩
  · rw [h₂.get key hkey (by omega), h₁.get key hkey (by omega)]
  · by_cases hk : key < v + m
    · obtain ⟨mem, hpage, hget, hval⟩ := h₁.new key h1 hk
      refine ⟨mem, hpage, (hsame key h1 hk).trans hget, ?_⟩
      -- the second extension owns only the table
      rw [hown'.keeps h₂.moves, hval]
      rw [mem_leafPages]
      exact ⟨key, h1, hk, by rw [hget, isPage_pa hpage (hperm key)]⟩
    · exact h₂.new key (by omega) (by omega)
  · have hpages : leafPages t'' v m = leafPages t' v m := leafPages_congr hsame
    rw [leafPages_add, hpages, add_left_comm]
    refine (h₁.moves.trans (h₂.moves.add _)).of_eq rfl ?_
    rw [add_comm, add_left_comm]

theorem Extends.userPart (h : Extends M k t k' t' v m perm val) (hu : UserPart t v)
    (hle : v + m ≤ USERTOP)
    (hleaf : ∀ key, v ≤ key → key < v + m → ∀ mem, IsLeaf (mapEntry mem (perm key))) :
    UserPart t' (v + m) := by
  refine ⟨hle, fun key hkey => ?_, fun key h1 h2 => ?_⟩
  · by_cases hv : key < v
    · rw [h.get key (key_lt_of_userTop (by omega)) (.inl hv)]
      exact hu.leaf key hv
    · obtain ⟨mem, -, hget, -⟩ := h.new key (by omega) hkey
      grind
  · rw [h.get key (key_lt_of_userTop h2) (.inr h1)]
    exact hu.none key (by omega) h2

/-- A new page is filled and mapped, if the nodes for it can be had. -/
theorem mapPage (hrep : Rep k.cell t) (hown : Custody M.IsPage k.toStore t.nodes)
    (hname : t.name = some pt) (hm : Moves k.toStore 0 k₁.toStore {mem}) (hkey : key < USERTOP)
    (hfree : t.get key = 0) {flags : Nat} (hperm : flags < 1024) (v : Page) :
    ∃ (done : Bool) (k' : Kmem) (t' : Table),
      mappages (k₁.setPage mem v) pt (key * 4096) PGSIZE mem flags = .ok (done, k')
      ∧ Rep k'.cell t' ∧ t'.name = t.name ∧ k'.cell mem = v
      ∧ Moves k.toStore t.nodes k'.toStore (t'.nodes + {mem}) ∧ t.nodes ≤ t'.nodes
      ∧ k'.free.length ≤ k₁.free.length ∧ ∀ key' < NPTE ^ 3, t'.get key'
        = if done = true ∧ key' = key then mapEntry mem flags else t.get key' := by
  obtain ⟨hmem, hpage⟩ := Custody.fresh hown hm
  have hm₁ : Moves k.toStore t.nodes k₁.toStore (t.nodes + {mem}) :=
    (hm.add_left t.nodes).of_eq (add_zero _) rfl
  have hm₂ : Moves k.toStore t.nodes (k₁.setPage mem v).toStore (t.nodes + {mem}) :=
    hm₁.trans (Kmem.moves_setPage (by simp) _)
  have hown₂ := hown.moves hm₂
  have hrep₂ : Rep (k₁.setPage mem v).cell t := by
    refine hrep.frame fun x hx => ?_
    have hne : x ≠ mem := fun hc => hmem (hc ▸ hx)
    show Function.update k₁.cell mem v x = _
    rw [Function.update_of_ne hne]
    exact hm.frame x (notMem_zero x) (hown.notMem_free hx)
  have hkey' : key < 2 ^ 26 - 2 := hkey
  have hpa : mem < 2 ^ 64 := by
    have := hpage.2.2
    have := M.phystop_le
    omega
  obtain ⟨done, k', t', hrun, hbec, hget⟩ := mappages_page (key * 4096) flags hrep₂ hown₂.left
    hname (mul_mod_left ..) (show key * 4096 < 2 ^ 38 by omega) (by rw [vpn_mul, hfree]) hpa
    hperm
  rw [vpn_mul] at hget
  obtain ⟨-, hkeep⟩ := hbec.frame hown₂
  refine ⟨done, k', t', hrun, hbec.rep, hbec.name, ?_, hm₂.trans (hbec.moves.add {mem}),
    hbec.sub, hbec.len, hget⟩
  rw [hkeep mem (mem_singleton_self mem)]
  exact Function.update_self ..

/-- A page just allocated is filled and mapped; when the table cannot be
completed, `kfree` takes the page back. -/
theorem mapNew (hrep : Rep k.cell t) (hown : Custody M.IsPage k.toStore t.nodes)
    (hname : t.name = some pt) (hm : Moves k.toStore 0 k₁.toStore {mem})
    (hlen : k.free.length = k₁.free.length + 1) (hkey : key < USERTOP) (hfree : t.get key = 0)
    (hperm : ∀ key, perm key < 1024) (val : Nat → Page) :
    ∃ done k', mappages (k₁.setPage mem (val key)) pt (key * 4096) PGSIZE mem (perm key)
        = .ok (done, k')
      ∧ (done = true → ∃ t', Extends M k t k' t' key 1 perm val ∧ k'.free.length < k.free.length)
      ∧ (done = false → ∃ k'' t', kfree M k' mem = .ok k'' ∧ Grows k t k'' t') := by
  obtain ⟨-, hpage⟩ := Custody.fresh hown hm
  obtain ⟨done, k', t', hrun, hrep', hname', hval, hmoves, hsub, hlen', hget⟩ :=
    mapPage hrep hown hname hm hkey hfree (hperm key) (val key)
  refine ⟨done, k', hrun, fun hd => ⟨t', ⟨hrep', hname', fun key' hk hout => ?_,
    fun key' h1 h2 => ?_, ?_, hsub⟩, by omega⟩, fun hd => ?_⟩
  · rw [hget key' hk, if_neg (by omega)]
  · grind
  · rw [leafPages, leafPages, add_zero, hget key (key_lt_of_userTop hkey), if_pos ⟨hd, rfl⟩,
      isPage_pa hpage (hperm key)]
    exact hmoves
  · obtain ⟨k'', hk'', hm₃, -⟩ := kfree_ok (k := k') hpage
    have hback : Moves k'.toStore (t'.nodes + {mem}) k''.toStore t'.nodes :=
      (hm₃.add_left _).of_eq rfl (add_zero _)
    have hcard := hm₃.card
    rw [card_singleton, card_zero] at hcard
    have hswap : Custody M.IsPage k'.toStore ({mem} + t'.nodes) :=
      add_comm t'.nodes {mem} ▸ hown.moves hmoves
    refine ⟨k'', t', hk'', hrep'.frame fun x hx => hswap.keeps hm₃ hx, hname', fun key' => ?_,
      hmoves.trans hback, hsub, by omega⟩
    have hmod : key' % NPTE ^ 3 < NPTE ^ 3 := mod_lt _ (by decide)
    rw [Trie.get_congr (b := key' % NPTE ^ 3) (mod_mod ..).symm, hget _ hmod,
      if_neg fun hc => by rw [hd] at hc; cases hc.1]
    exact Trie.get_congr (mod_mod ..)

/-- A failed growth: the range from `v` on is unmapped again. -/
structure Withdrawn (k : Kmem) (t : Table) (k' : Kmem) (t' : Table) (v m : Nat) : Prop where
  rep : Rep k'.cell t'
  name : t'.name = t.name
  get : ∀ key < NPTE ^ 3, t'.get key = if v ≤ key ∧ key < v + m then 0 else t.get key
  moves : Moves k.toStore (t.nodes + leafPages t v m) k'.toStore t'.nodes
  sub : t.nodes ≤ t'.nodes

/-- A table that grew by nodes only, before the range was unmapped. -/
theorem Withdrawn.of_grows (hg : Grows k t k' t') (hw : Withdrawn k' t' k'' t'' v m) :
    Withdrawn k t k'' t'' v m := by
  have hpages : leafPages t' v m = leafPages t v m := leafPages_congr fun key _ _ => hg.get key
  refine ⟨hw.rep, hw.name.trans hg.name, fun key hkey => ?_, ?_, hg.sub.trans hw.sub⟩
  · rw [hw.get key hkey, hg.get]
  · exact ((hg.moves.add _).of_eq rfl (by rw [hpages])).trans hw.moves

/-- A range and one page behind it, which was not mapped before. -/
theorem Withdrawn.of_extends {j : Nat} (hkey : v + j < NPTE ^ 3) (hnone : t.get (v + j) = 0)
    (he : Extends M k t k' t' (v + j) 1 perm val) (hw : Withdrawn k' t' k'' t'' v (j + 1)) :
    Withdrawn k t k'' t'' v j := by
  have hpages : leafPages t' v (j + 1) = leafPages t v j + leafPages t' (v + j) 1 := by
    rw [leafPages_add]
    congr 1
    exact leafPages_congr fun key _ h2 => he.get key (by omega) (.inl h2)
  refine ⟨hw.rep, hw.name.trans he.name, fun key hlt => ?_, ?_, he.sub.trans hw.sub⟩
  · rw [hw.get key hlt]
    by_cases h0 : key = v + j
    · grind
    · grind [he.get key hlt (by omega)]
  · refine ((he.moves.add (leafPages t v j)).of_eq rfl ?_).trans hw.moves
    grind

/-- What is owned once a range got one page longer. -/
theorem Extends.owned {j : Nat} {B : Multiset Nat} (hkeys : v + j ≤ NPTE ^ 3)
    (he : Extends M k t k' t' (v + j) 1 perm val)
    (hown : Custody M.IsPage k.toStore (t.nodes + leafPages t v j + B)) :
    Custody M.IsPage k'.toStore (t'.nodes + leafPages t' v (j + 1) + B) := by
  have hpages : leafPages t' v j = leafPages t v j :=
    leafPages_congr fun key _ h2 => he.get key (by omega) (.inl h2)
  have h := hown.moves ((he.moves.add (leafPages t v j)).add B)
  rwa [leafPages_add, hpages, ← add_assoc, add_right_comm t'.nodes]

/-- The error path of `uvmalloc`. -/
theorem uvmallocUndo (hrep : Rep k.cell t)
    (hown : Custody M.IsPage k.toStore (t.nodes + leafPages t v m)) (hname : t.name = some pt)
    (hu : UserPart t (v + m)) :
    ∃ s k' t', uvmdealloc M k pt ((v + m) * 4096) (v * 4096) = .ok (s, k')
      ∧ Withdrawn k t k' t' v m := by
  have hnpg : ∀ n, npg (n * 4096) = n := fun n => by
    show (n * 4096 + 4095) / 4096 = n
    omega
  by_cases hm : m = 0
  · subst hm
    refine ⟨_, k, t, uvmdealloc_ge (by omega), ⟨hrep, rfl, fun key _ => ?_, ?_, le_rfl⟩⟩
    · rw [if_neg (by omega)]
    · exact .of_eq (.refl _ _) (add_zero _).symm rfl
  · have hsub : v + m - v = m := by omega
    obtain ⟨k', t', hrun, hcl, hmv⟩ := uvmdealloc_lt ((v + m) * 4096) (v * 4096) (by omega)
      (by rw [hnpg]; exact hu.le) hrep (by rw [hnpg, hnpg, hsub]; exact hown) hname
      fun key _ h2 => hu.leaf key (by rwa [hnpg] at h2)
    rw [hnpg, hnpg, hsub] at hcl hmv
    exact ⟨_, k', t', hrun, hcl.rep, hcl.name, hcl.get, hmv.of_eq rfl hcl.nodes.symm,
      hcl.nodes.ge⟩

theorem Grows.userPart (hg : Grows k t k' t') (hu : UserPart t m) : UserPart t' m :=
  ⟨hu.le, fun key hlt => by rw [hg.get]; exact hu.leaf key hlt, fun key h1 h2 => by
    rw [hg.get]
    exact hu.none key h1 h2⟩

/-- Flags and contents of the pages `uvmalloc` maps. -/
abbrev userFlags : Nat → Nat := fun _ => userPerm
abbrev zeroPage : Nat → Page := fun _ => ByteVec.fill PGSIZE 0

theorem userFlags_lt (key : Nat) : userFlags key < 1024 :=
  show userPerm < 1024 by decide

theorem userFlags_leaf (key mem : Nat) : IsLeaf (mapEntry mem (userFlags key)) :=
  mapEntry_leaf (userFlags_lt key) (show pteHas userPerm _ = true by decide)

theorem uvmallocLoop_ok {r : Nat} : ∀ {k : Kmem} {t : Table} {j : Nat}, Rep k.cell t →
    Custody M.IsPage k.toStore (t.nodes + leafPages t v j) → t.name = some pt →
    UserPart t (v + j) → v + j + k.free.length ≤ USERTOP →
    ∃ (done : Bool) (k' : Kmem) (t' : Table),
      uvmallocLoop M pt (v * 4096) r k ((v + j) * 4096) = .ok (done, k')
      ∧ (done = true → Extends M k t k' t' (v + j) r userFlags zeroPage ∧ v + j + r ≤ USERTOP)
      ∧ (done = false → Withdrawn k t k' t' v j) := by
  induction r with
  | zero =>
    intro k t j hrep _ _ hu _
    exact ⟨true, k, t, rfl, fun _ => ⟨.refl hrep _, hu.le⟩, nofun⟩
  | succ r ih =>
    intro k t j hrep hown hname hu hcount
    unfold uvmallocLoop
    rcases kalloc_cases k with ⟨k₁, he, hk⟩ | ⟨mem, k₁, he, hm, hlen⟩
    · -- no page: what was mapped so far goes back
      rw [he]
      rw [← hk] at hrep hown
      obtain ⟨s, k', t', hrun, hw⟩ := uvmallocUndo hrep hown hname hu
      refine ⟨false, k', t', ?_, nofun, fun _ =>
        ⟨hw.rep, hw.name, hw.get, hk ▸ hw.moves, hw.sub⟩⟩
      simp only [hrun, ok_bind]
    · rw [he]
      have hkey : v + j < USERTOP := by omega
      have hnone : t.get (v + j) = 0 := hu.none _ (le_refl _) hkey
      obtain ⟨done, k₂, hrun, hsucc, hfail⟩ := mapNew hrep hown.left hname hm hlen hkey
        hnone userFlags_lt zeroPage
      simp only [hrun, ok_bind]
      cases done with
      | false =>
        -- no page for the table
        obtain ⟨k₃, t₃, hk₃, hg⟩ := hfail rfl
        have hpages : leafPages t₃ v j = leafPages t v j :=
          leafPages_congr fun key _ _ => hg.get key
        have hown₃ := hown.moves (hg.moves.add (leafPages t v j))
        rw [← hpages] at hown₃
        obtain ⟨s, k', t', hundo, hw⟩ := uvmallocUndo hg.rep hown₃ (hg.name.trans hname)
          (hg.userPart hu)
        refine ⟨false, k', t', ?_, nofun, fun _ => hw.of_grows hg⟩
        simp only [Bool.false_eq_true, if_false, hk₃, hundo, ok_bind]
      | true =>
        obtain ⟨t₂, hext, hlen₂⟩ := hsucc rfl
        have hkeys : v + j + 1 ≤ NPTE ^ 3 := key_lt_of_userTop hkey
        have hown₂ := hext.owned (B := 0) (le_of_succ_le hkeys)
          (by rw [add_zero]; exact hown)
        rw [add_zero] at hown₂
        obtain ⟨done, k', t', hrun', hsucc', hfail'⟩ := ih (j := j + 1) hext.rep hown₂
          (hext.name.trans hname) (hext.userPart hu (by omega) fun key _ _ =>
            userFlags_leaf key) (by omega)
        have haddr : (v + j) * 4096 + PGSIZE = (v + (j + 1)) * 4096 := by grind
        refine ⟨done, k', t', ?_, fun hd => ?_, fun hd => ?_⟩
        · grind
        · obtain ⟨hext', hle⟩ := hsucc' hd
          refine ⟨?_, by omega⟩
          rw [add_comm r 1]
          exact hext.trans userFlags_lt hown.left hkeys hext'
        · exact (hfail' hd).of_extends (key_lt_of_userTop hkey) hnone hext

/-- `uvmalloc` maps all the pages up to the new size or none. -/
theorem uvmalloc_ok {oldsz : Nat} (newsz : Nat) (hrep : Rep k.cell t)
    (hown : Custody M.IsPage k.toStore t.nodes) (hname : t.name = some pt)
    (hu : UserPart t (npg oldsz)) (hcount : npg oldsz + k.free.length ≤ USERTOP)
    (hle : oldsz ≤ newsz) :
    ∃ (r : Nat) (k' : Kmem) (t' : Table), uvmalloc M k pt oldsz newsz = .ok (r, k')
      ∧ (r = newsz ∧ Extends M k t k' t' (npg oldsz) (npg newsz - npg oldsz) userFlags zeroPage
          ∧ UserPart t' (npg newsz)
        ∨ r = 0 ∧ Withdrawn k t k' t' (npg oldsz) 0) := by
  have hold : npg oldsz ≤ 2 ^ 26 - 2 := hu.le
  have hold' : (oldsz + 4095) / 4096 ≤ 2 ^ 26 - 2 := hu.le
  have hpages : npg oldsz ≤ npg newsz := by
    show (oldsz + 4095) / 4096 ≤ (newsz + 4095) / 4096
    omega
  have hrounds : (newsz - npg oldsz * 4096 + PGSIZE - 1) / PGSIZE = npg newsz - npg oldsz := by
    show (newsz - (oldsz + 4095) / 4096 * 4096 + 4095) / 4096
      = (newsz + 4095) / 4096 - (oldsz + 4095) / 4096
    omega
  obtain ⟨done, k', t', hrun, hsucc, hfail⟩ :=
    uvmallocLoop_ok (M := M) (v := npg oldsz) (r := npg newsz - npg oldsz) (j := 0) hrep
      (by rw [leafPages, add_zero]; exact hown) hname hu hcount
  refine ⟨if done then newsz else 0, k', t', ?_, ?_⟩
  · rw [uvmalloc, if_neg (not_lt.mpr hle)]
    simp only [pgroundup_npg (show oldsz + 4096 ≤ 2 ^ 64 by omega), hrounds]
    rw [add_zero] at hrun
    rw [hrun]
    rfl
  · cases done with
    | true =>
      obtain ⟨hext, htop⟩ := hsucc rfl
      rw [add_zero] at hext htop
      refine .inl ⟨rfl, hext, ?_⟩
      have := hext.userPart hu htop fun key _ _ => userFlags_leaf key
      rwa [Nat.add_sub_cancel' hpages] at this
    | false => exact .inr ⟨rfl, hfail rfl⟩

end Alloc

/-! ## Whole address spaces -/

/-- A user table of `n` pages: those, the trampoline and the trapframe,
and nothing else. -/
structure Space (M : Machine) (t : Table) (tf n : Nat) : Prop where
  user : UserPart t n
  trapframe : t.get USERTOP = mapEntry tf (PTE_R ||| PTE_W)
  trampoline : t.get (USERTOP + 1) = mapEntry M.trampoline (PTE_R ||| PTE_X)
  above : ∀ key, USERTOP + 1 < key → key < NPTE ^ 3 → t.get key = 0

/-- The pages of an address space, without the trapframe. -/
def spacePages (t : Table) (n : Nat) : Multiset Nat := t.nodes + leafPages t 0 n

section Space

variable {M : Machine} {k k' : Kmem} {t t' : Table} {pt tf n : Nat}

theorem get_zero_of_lt (h : ∀ key < NPTE ^ 3, t.get key = 0) (key : Nat) : t.get key = 0 := by
  rw [Trie.get_congr (b := key % NPTE ^ 3) (mod_mod ..).symm]
  exact h _ (mod_lt _ (by decide))

/-- `uvmfree` of a table with nothing but user pages. -/
theorem uvmfree_ok (sz : Nat) (hsz : sz + 4096 ≤ 2 ^ 64) (hrep : Rep k.cell t)
    (hown : Custody M.IsPage k.toStore (spacePages t (npg sz))) (hname : t.name = some pt)
    (hu : UserPart t (npg sz)) (htop : ∀ key, USERTOP ≤ key → key < NPTE ^ 3 → t.get key = 0) :
    ∃ k', uvmfree M k pt sz = .ok k' ∧ Moves k.toStore (spacePages t (npg sz)) k'.toStore 0 := by
  have hle : npg sz ≤ 2 ^ 26 - 2 := hu.le
  -- the user pages go first
  obtain ⟨k₁, t₁, hunmap, hrep₁, hname₁, hzero, hm₁⟩ : ∃ (k₁ : Kmem) (t₁ : Table),
      (if 0 < sz then uvmunmap M k pt 0 (PGROUNDUP sz / PGSIZE) true else .ok k) = .ok k₁
      ∧ Rep k₁.cell t₁ ∧ t₁.name = some pt ∧ (∀ key < NPTE ^ 3, t₁.get key = 0)
      ∧ Moves k.toStore (spacePages t (npg sz)) k₁.toStore t₁.nodes := by
    by_cases hpos : 0 < sz
    · have hcount : PGROUNDUP sz / PGSIZE = npg sz := by simp [pgroundup_npg hsz]
      obtain ⟨k₁, t₁, hrun, hcl, hm⟩ := uvmunmap_ok true 0 (n := npg sz) hrep hown hname
        (zero_mod _) (show 0 + npg sz * 4096 ≤ 2 ^ 38 by omega) fun j hj => by
          rw [show vpn 0 = 0 from rfl, zero_add]
          exact hu.leaf j hj
      rw [if_pos hpos, hcount]
      refine ⟨k₁, t₁, hrun, hcl.rep, hcl.name.trans hname, fun key hkey => ?_,
        hm.of_eq rfl hcl.nodes.symm⟩
      rw [hcl.get key hkey, show vpn 0 = 0 from rfl, zero_add]
      by_cases h1 : key < npg sz
      · rw [if_pos ⟨zero_le _, h1⟩]
      · rw [if_neg fun hc => h1 hc.2]
        by_cases h2 : key < USERTOP
        · exact hu.none key (Nat.le_of_not_lt h1) h2
        · exact htop key (Nat.le_of_not_lt h2) hkey
    · have hn : npg sz = 0 := by
        obtain rfl : sz = 0 := by omega
        rfl
      rw [if_neg hpos]
      refine ⟨k, t, rfl, hrep, hname, fun key hkey => ?_, .of_eq (.refl _ t.nodes) ?_ rfl⟩
      · by_cases h2 : key < USERTOP
        · exact hu.none key (by omega) h2
        · exact htop key (Nat.le_of_not_lt h2) hkey
      · rw [spacePages, hn]
        exact (add_zero _).symm
  obtain ⟨k', hk', hm'⟩ := freewalk_ok hrep₁ (hown.moves hm₁) hname₁ (get_zero_of_lt hzero)
  rw [show 2 + 1 = 3 from rfl] at hk'
  refine ⟨k', ?_, hm₁.trans hm'⟩
  unfold uvmfree
  rw [hunmap, ok_bind, hk']

/-- `uvmunmap` of the trampoline or the trapframe, which stay. -/
theorem uvmunmap_top (key : Nat) (hrep : Rep k.cell t)
    (hown : Custody M.IsPage k.toStore t.nodes) (hname : t.name = some pt)
    (hkey : key ≤ USERTOP + 1) (hleaf : IsLeaf (t.get key)) :
    ∃ k' t', uvmunmap M k pt (key * 4096) 1 false = .ok k' ∧ Cleared k t k' t' key 1
      ∧ Moves k.toStore t.nodes k'.toStore t'.nodes := by
  have hkey' : key ≤ 2 ^ 26 - 1 := hkey
  obtain ⟨k', t', hrun, hcl, hm⟩ := uvmunmap_ok false (key * 4096) (n := 1) hrep
    (by rw [given, if_neg Bool.false_ne_true, add_zero]; exact hown) hname (mul_mod_left ..)
    (show key * 4096 + 1 * 4096 ≤ 2 ^ 38 by omega) fun j hj => by simp_all [vpn_mul]
  rw [vpn_mul] at hcl hm
  rw [given, if_neg Bool.false_ne_true, add_zero] at hm
  exact ⟨k', t', hrun, hcl, hm.of_eq rfl hcl.nodes.symm⟩

theorem Cleared.userPart (h : Cleared k t k' t' key 1) (hkey : USERTOP ≤ key) (hu : UserPart t m) :
    UserPart t' m := by
  have hsame : ∀ key' < USERTOP, t'.get key' = t.get key' := fun key' hlt => by
    rw [h.get key' (key_lt_of_userTop hlt), if_neg (by omega)]
  refine ⟨hu.le, fun key' hlt => ?_, fun key' h1 h2 => ?_⟩
  · rw [hsame key' (lt_of_lt_of_le hlt hu.le)]
    exact hu.leaf key' hlt
  · rw [hsame key' h2]
    exact hu.none key' h1 h2

theorem Space.leaf_trapframe (h : Space M t tf n) : IsLeaf (t.get USERTOP) := by
  rw [h.trapframe]
  exact mapEntry_leaf (by decide) (by decide)

theorem Space.leaf_trampoline (h : Space M t tf n) : IsLeaf (t.get (USERTOP + 1)) := by
  rw [h.trampoline]
  exact mapEntry_leaf (by decide) (by decide)

/-- `proc_freepagetable` gives an address space back. -/
theorem procFreepagetable_ok (sz : Nat) (hsz : sz + 4096 ≤ 2 ^ 64) (hrep : Rep k.cell t)
    (hown : Custody M.IsPage k.toStore (spacePages t (npg sz))) (hname : t.name = some pt)
    (hs : Space M t tf (npg sz)) :
    ∃ k', procFreepagetable M k pt sz = .ok k'
      ∧ Moves k.toStore (spacePages t (npg sz)) k'.toStore 0 := by
  obtain ⟨k₁, t₁, hrun₁, hcl₁, hm₁⟩ := uvmunmap_top (USERTOP + 1) hrep hown.left hname
    (le_refl _) hs.leaf_trampoline
  have hu₁ := hcl₁.userPart (le_succ _) hs.user
  have hpages₁ : leafPages t₁ 0 (npg sz) = leafPages t 0 (npg sz) :=
    leafPages_congr fun key _ h2 => by
      have := hs.user.le
      rw [hcl₁.get key (key_lt_of_userTop (by omega)), if_neg (by omega)]
  have hm₁' : Moves k.toStore (spacePages t (npg sz)) k₁.toStore (spacePages t₁ (npg sz)) :=
    (hm₁.add _).of_eq rfl (by rw [spacePages, hpages₁])
  have hown₁ := hown.moves hm₁'
  have htf : IsLeaf (t₁.get USERTOP) := by
    rw [hcl₁.get USERTOP (by decide), if_neg (by omega)]
    exact hs.leaf_trapframe
  obtain ⟨k₂, t₂, hrun₂, hcl₂, hm₂⟩ := uvmunmap_top USERTOP hcl₁.rep hown₁.left
    (hcl₁.name.trans hname) (le_succ _) htf
  have hu₂ := hcl₂.userPart (le_refl _) hu₁
  have hpages₂ : leafPages t₂ 0 (npg sz) = leafPages t₁ 0 (npg sz) :=
    leafPages_congr fun key _ h2 => by
      have := hs.user.le
      rw [hcl₂.get key (key_lt_of_userTop (by omega)), if_neg (by omega)]
  have hm₂' : Moves k₁.toStore (spacePages t₁ (npg sz)) k₂.toStore (spacePages t₂ (npg sz)) :=
    (hm₂.add _).of_eq rfl (by rw [spacePages, hpages₂])
  obtain ⟨k', hrun', hm'⟩ := uvmfree_ok sz hsz hcl₂.rep (hown₁.moves hm₂')
    (hcl₂.name.trans (hcl₁.name.trans hname)) hu₂ fun key h1 h2 => by
      rw [hcl₂.get key h2]
      by_cases h3 : key = USERTOP
      · rw [if_pos (by omega)]
      · rw [if_neg (by omega), hcl₁.get key h2]
        by_cases h4 : key = USERTOP + 1
        · rw [if_pos (by omega)]
        · rw [if_neg (by omega)]
          exact hs.above key (by omega) h2
  refine ⟨k', ?_, hm₁'.trans (hm₂'.trans hm')⟩
  unfold procFreepagetable
  rw [show TRAMPOLINE = (USERTOP + 1) * 4096 from rfl, show TRAPFRAME = USERTOP * 4096 from rfl,
    hrun₁]
  show (do let k ← uvmunmap M k₁ pt (USERTOP * 4096) 1 false; uvmfree M k pt sz) = _
  rw [hrun₂]
  exact hrun'

end Space

end Xv6.Vm
