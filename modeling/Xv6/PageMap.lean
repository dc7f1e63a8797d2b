import Xv6.PageRoles

/-!
# A page table is a finite map

What one page table does over its whole life. The operations are those
of `vm.c` on the table, together with what the rest of the kernel does
with the pages it has from the allocator. A page table is seen as the
function from page addresses to leaf entries that `walk` computes:
`mappages` adds the pages of a range, `uvmunmap` removes them, and `walk`
changes nothing, whatever it allocates.
-/

namespace Xv6.Vm

open Transfer Radix StepSystem List Option Nat

/-- The leaf entry for `va`, when there is a valid one. -/
def leafEntry (k : Kmem) (pagetable va : Nat) : Option Nat :=
  match walk k pagetable va false with
  | .ok (some p, _) => if pteHas (k.pte p) PTE_V then some (k.pte p) else none
  | _ => none

/-- The page at `a` has a byte of `[va, va + size)`. -/
def Overlaps (a va size : Nat) : Prop := a < va + size ∧ va < a + PGSIZE

instance (a va size : Nat) : Decidable (Overlaps a va size) := inferInstanceAs (Decidable (_ ∧ _))

/-- The entry `mappages` writes for the page at `a`. -/
def rangeEntry (va pa perm a : Nat) : Nat :=
  PA2PTE ((pa + (a - PGROUNDDOWN va)) % 2 ^ 64) ||| perm ||| PTE_V

/-- The pages that `uvmunmap` frees. -/
def freedPages (k : Kmem) (root va npages : Nat) (doFree : Bool) : Multiset Nat :=
  if doFree then
    (range (((va + npages * PGSIZE) % 2 ^ 64 - va) / PGSIZE)).map fun j =>
      PTE2PA (lookup k.cell 2 root (vpn va + j))
  else 0

/-! ## Runs -/

/-- Operations on one page table, and on the pages that have another
use. -/
inductive TableOp where
  | walk (va : BitVec 64)
  | mappages (va size pa perm : BitVec 64)
  | uvmunmap (va npages : BitVec 64) (doFree : Bool)
  | kalloc
  | kfree (pa : Nat)
  | store (pa : Nat) (v : Page)

/-- Memory, and the pages that were allocated for other uses than the
table. -/
structure TableSys where
  kmem : Kmem
  others : Multiset Nat

/-- One operation on the table at `root`. A panic ends the run. Only
pages allocated for another use are written or freed. -/
def tableStep (M : Machine) (root : Nat) (s : TableSys) : TableOp → Option TableSys
  | .walk va =>
      match walk s.kmem root va.toNat true with
      | .ok (_, k) => some ⟨k, s.others⟩
      | .error _ => none
  | .mappages va size pa perm =>
      match mappages s.kmem root va.toNat size.toNat pa.toNat perm.toNat with
      | .ok (_, k) => some ⟨k, s.others⟩
      | .error _ => none
  | .uvmunmap va npages doFree =>
      let freed := freedPages s.kmem root va.toNat npages.toNat doFree
      if freed ≤ s.others then
        match uvmunmap M s.kmem root va.toNat npages.toNat doFree with
        | .ok k => some ⟨k, s.others - freed⟩
        | .error _ => none
      else none
  | .kalloc =>
      match kalloc s.kmem with
      | (none, k) => some ⟨k, s.others⟩
      | (some pg, k) => some ⟨k, pg ::ₘ s.others⟩
  | .kfree pa =>
      if pa ∈ s.others then
        match kfree M s.kmem pa with
        | .ok k => some ⟨k, s.others.erase pa⟩
        | .error _ => none
      else none
  | .store pa v => if pa ∈ s.others then some ⟨s.kmem.setPage pa v, s.others⟩ else none

/-- The operations on the table at `root`, seen on its entries. -/
structure FiniteMap (M : Machine) (root : Nat) (s : TableSys) : Prop where
  walk : ∀ (va : BitVec 64) r k', walk s.kmem root va.toNat true = .ok (r, k') →
    ∀ a, leafEntry k' root a = leafEntry s.kmem root a
  mapped : ∀ (va size pa perm : BitVec 64) k', va.toNat + size.toNat ≤ 2 ^ 64 →
    mappages s.kmem root va.toNat size.toNat pa.toNat perm.toNat = .ok (true, k') →
    ∀ a < MAXVA, a % PGSIZE = 0 → leafEntry k' root a
      = if Overlaps a va.toNat size.toNat then some (rangeEntry va.toNat pa.toNat perm.toNat a)
        else leafEntry s.kmem root a
  failed : ∀ (va size pa perm : BitVec 64) k', va.toNat + size.toNat ≤ 2 ^ 64 →
    mappages s.kmem root va.toNat size.toNat pa.toNat perm.toNat = .ok (false, k') →
    ∃ f, f % PGSIZE = 0 ∧ Overlaps f va.toNat size.toNat ∧
      ∀ a < MAXVA, a % PGSIZE = 0 → leafEntry k' root a
        = if Overlaps a va.toNat size.toNat ∧ a < f
          then some (rangeEntry va.toNat pa.toNat perm.toNat a) else leafEntry s.kmem root a
  unmapped : ∀ (va npages : BitVec 64) doFree k', va.toNat + npages.toNat * PGSIZE < 2 ^ 64 →
    freedPages s.kmem root va.toNat npages.toNat doFree ≤ s.others →
    uvmunmap M s.kmem root va.toNat npages.toNat doFree = .ok k' →
    ∀ a < MAXVA, a % PGSIZE = 0 →
      if va.toNat ≤ a ∧ a < va.toNat + npages.toNat * PGSIZE
        then (leafEntry s.kmem root a).isSome ∧ leafEntry k' root a = none
        else leafEntry k' root a = leafEntry s.kmem root a

/-! ## The entries of a tree -/

/-- Memory holds one page table; its pages and those of other uses are
different, and none is free. -/
structure IsTable (M : Machine) (root : Nat) (s : TableSys) (t : Table) : Prop where
  rep : Rep s.kmem.cell t
  name : t.name = some root
  owned : Custody M.IsPage s.kmem.toStore (t.nodes + s.others)

/-- An entry as `leafEntry` shows it. -/
def validEntry (pte : Nat) : Option Nat := if pte % 2 = 1 then some pte else none

section Entries

variable {M : Machine} {root : Nat} {s s' : TableSys} {k' : Kmem} {t t' : Table} {B : Multiset Nat}

theorem leafEntry_eq {k : Kmem} (hrep : Rep k.cell t) (hok : ∀ x ∈ t.nodes, M.IsPage x)
    (hname : t.name = some root) {va : Nat} (hva : va < MAXVA) :
    leafEntry k root va = validEntry (t.get (vpn va)) := by
  rw [leafEntry, walk_false hrep hok hname hva]
  cases hb : t.bottom (vpn va) with
  | none =>
    have hget : t.get (vpn va) = 0 := by
      by_contra hc
      obtain ⟨b, hb'⟩ := Trie.hasPath_iff.mp (Trie.hasPath_of_get_ne hc)
      rw [hb] at hb'
      cases hb'
    rw [hget]
    rfl
  | some b =>
    have hpte : k.pte ⟨b, PX 0 va⟩ = t.get (vpn va) := At.pte ⟨b, hb, rfl⟩ hrep
    simp only [map_some, hpte, pteHas_v, decide_eq_true_eq]
    rfl

theorem leafEntry_above {k : Kmem} {va : Nat} (hva : MAXVA ≤ va) : leafEntry k root va = none := by
  rw [leafEntry, walk, if_pos hva]

theorem IsTable.leafEntry_eq (h : IsTable M root s t) {va : Nat} (hva : va < MAXVA) :
    leafEntry s.kmem root va = validEntry (t.get (vpn va)) :=
  Vm.leafEntry_eq h.rep (fun _ hx => h.owned.left.ok_owned hx) h.name hva

/-- The table changed, and nothing besides it. -/
theorem IsTable.becomes (h : IsTable M root s t) (hb : Becomes s.kmem t k' t') :
    IsTable M root ⟨k', s.others⟩ t' :=
  ⟨hb.rep, hb.name.trans h.name, h.owned.moves (hb.moves.add s.others)⟩

theorem IsTable.cleared (h : IsTable M root s t) {v n : Nat} (hc : Cleared s.kmem t k' t' v n)
    (hm : Moves s.kmem.toStore (t.nodes + B) k'.toStore t.nodes) (hB : B ≤ s.others) :
    IsTable M root ⟨k', s.others - B⟩ t' := by
  refine ⟨hc.rep, hc.name.trans h.name, ?_⟩
  have hown := h.owned
  rw [← add_tsub_cancel_of_le hB, ← add_assoc] at hown
  have hown' := hown.moves (hm.add (s.others - B))
  rwa [← hc.nodes] at hown'

/-- Entries that are the same show the same. -/
theorem leafEntry_congr {k : Kmem} (hrep : Rep k.cell t) (hrep' : Rep k'.cell t')
    (hok : ∀ x ∈ t.nodes, M.IsPage x) (hok' : ∀ x ∈ t'.nodes, M.IsPage x)
    (hname : t.name = some root) (hname' : t'.name = some root)
    (hget : ∀ key, t'.get key = t.get key) (a : Nat) : leafEntry k' root a = leafEntry k root a := by
  rcases lt_or_ge a MAXVA with ha | ha
  · rw [Vm.leafEntry_eq hrep' hok' hname' ha, Vm.leafEntry_eq hrep hok hname ha, hget]
  · rw [leafEntry_above ha, leafEntry_above ha]

end Entries

/-! ## `mappages` -/

section Map

variable {M : Machine} {root : Nat} {s : TableSys} {k' : Kmem} {t t' : Table} {va size pa perm : BitVec 64}

/-- The number of pages that overlap a range. -/
def pagesOver (va size : Nat) : Nat := (va + size - 1) / 4096 - va / 4096 + 1

theorem overlaps_iff {a va size : Nat} (hsize : 0 < size) (ha : a % PGSIZE = 0) :
    Overlaps a va size ↔ vpn va ≤ vpn a ∧ vpn a < vpn va + pagesOver va size := by
  have ha' : a % 4096 = 0 := ha
  show a < va + size ∧ va < a + 4096 ↔ va / 4096 ≤ a / 4096
    ∧ a / 4096 < va / 4096 + ((va + size - 1) / 4096 - va / 4096 + 1)
  omega

theorem rounds_pagesOver {va size : Nat} (hsize : 0 < size) (hend : va + size ≤ 2 ^ 64) :
    (PGROUNDDOWN ((va + size - 1) % 2 ^ 64) + 2 ^ 64 - PGROUNDDOWN va) % 2 ^ 64 / PGSIZE + 1
      = pagesOver va size := by
  rw [mod_eq_of_lt (show va + size - 1 < 2 ^ 64 by omega)]
  show ((va + size - 1) / 4096 * 4096 + 2 ^ 64 - va / 4096 * 4096) % 2 ^ 64 / 4096 + 1
    = (va + size - 1) / 4096 - va / 4096 + 1
  omega

theorem vpn_pgrounddown (va : Nat) : vpn (PGROUNDDOWN va) = vpn va := Nat.mul_div_cancel _ (by decide)

theorem IsTable.mappagesLoop (h : IsTable M root s t) {n : Nat} {done : Bool}
    (hrun : mappagesLoop root perm.toNat n s.kmem (PGROUNDDOWN va.toNat) pa.toNat = .ok (done, k')) :
    ∃ t' m, Becomes s.kmem t k' t' ∧ m ≤ n ∧ (done = true ↔ m = n)
      ∧ MapsRange t t' (vpn va.toNat) m pa.toNat perm.toNat := by
  have hmod : PGROUNDDOWN va.toNat % 4096 = 0 := mul_mod_left ..
  have hends := mappagesLoop_ends (E := fun _ => True) perm.isLt (n := n) h.rep h.owned.left h.name
    hmod pa.isLt (.inr ⟨trivial, trivial⟩)
  have hres := hends.of_ok hrun
  rwa [vpn_pgrounddown] at hres

theorem validEntry_mapEntry (pa perm : Nat) : validEntry (mapEntry pa perm) = some (mapEntry pa perm) :=
  if_pos (or_v_mod _)

/-- The entries after the first `m` pages of a range were mapped. -/
theorem IsTable.entry_mapped (h : IsTable M root s t) (hb : Becomes s.kmem t k' t') {m a : Nat}
    (hmaps : MapsRange t t' (vpn va.toNat) m pa.toNat perm.toNat) (ha : a < MAXVA)
    (hmod : a % PGSIZE = 0) : leafEntry k' root a
      = if vpn va.toNat ≤ vpn a ∧ vpn a < vpn va.toNat + m
        then some (rangeEntry va.toNat pa.toNat perm.toNat a) else leafEntry s.kmem root a := by
  have hlt : vpn a < NPTE ^ 3 := by
    have ha' : a < 2 ^ 38 := ha
    show a / 4096 < 512 ^ 3
    omega
  rw [(h.becomes hb).leafEntry_eq ha, hmaps _ hlt, h.leafEntry_eq ha]
  split
  · have hoff : (vpn a - vpn va.toNat) * PGSIZE = a - PGROUNDDOWN va.toNat := by
      have hmod' : a % 4096 = 0 := hmod
      show (a / 4096 - va.toNat / 4096) * 4096 = a - va.toNat / 4096 * 4096
      omega
    rw [validEntry_mapEntry, hoff]
    rfl
  · rfl

/-- Either the whole range is mapped or its pages before one of it. -/
theorem IsTable.mappages (h : IsTable M root s t) {done : Bool}
    (hend : va.toNat + size.toNat ≤ 2 ^ 64)
    (hrun : mappages s.kmem root va.toNat size.toNat pa.toNat perm.toNat = .ok (done, k')) :
    ∃ f, f % PGSIZE = 0 ∧ (done = false → Overlaps f va.toNat size.toNat) ∧
      ∀ a < MAXVA, a % PGSIZE = 0 → leafEntry k' root a
        = if Overlaps a va.toNat size.toNat ∧ (done = false → a < f)
          then some (rangeEntry va.toNat pa.toNat perm.toNat a) else leafEntry s.kmem root a := by
  rw [Vm.mappages] at hrun
  split at hrun
  · cases hrun
  · rename_i hsize
    have hsize : 0 < size.toNat := pos_of_ne_zero hsize
    simp only [rounds_pagesOver hsize hend] at hrun
    obtain ⟨t', m, hb, hm, hdone, hmaps⟩ := h.mappagesLoop hrun
    have hfmod : (vpn va.toNat + m) * PGSIZE % PGSIZE = 0 := mul_mod_left ..
    have hfvpn : vpn ((vpn va.toNat + m) * PGSIZE) = vpn va.toNat + m := Nat.mul_div_cancel _ (by decide)
    refine ⟨(vpn va.toNat + m) * PGSIZE, hfmod, fun hd => ?_, fun a ha hmod => ?_⟩
    · have hne : m ≠ pagesOver va.toNat size.toNat := fun hc => by
        rw [hdone.mpr hc] at hd
        cases hd
      rw [overlaps_iff hsize hfmod, hfvpn]
      omega
    · rw [h.entry_mapped hb hmaps ha hmod]
      refine if_congr ?_ rfl rfl
      rw [overlaps_iff hsize hmod]
      have hlt : a < (vpn va.toNat + m) * PGSIZE ↔ vpn a < vpn va.toNat + m := by
        have hmod' : a % 4096 = 0 := hmod
        show a < (vpn va.toNat + m) * 4096 ↔ a / 4096 < vpn va.toNat + m
        omega
      rw [hlt]
      cases done with
      | true =>
        rw [hdone.mp rfl]
        simp
      | false =>
        simp only [forall_const]
        omega

end Map

/-! ## `uvmunmap` -/

section Unmap

variable {M : Machine} {root : Nat} {s : TableSys} {k' : Kmem} {t t' : Table} {va npages : BitVec 64}
  {doFree : Bool}

theorem map_leafPages (n v : Nat) :
    (((range n).map fun j => PTE2PA (t.get (v + j)) : List Nat) : Multiset Nat) = leafPages t v n := by
  induction n with
  | zero => rfl
  | succ n ih =>
    rw [range_succ, map_append, ← Multiset.coe_add, ih, leafPages_add]
    simp [leafPages]

/-- The rounds of the loop of `uvmunmap`. -/
def unmapRounds (va npages : Nat) : Nat := ((va + npages * PGSIZE) % 2 ^ 64 - va) / PGSIZE

theorem IsTable.freed_eq (h : IsTable M root s t) (va npages : Nat) (doFree : Bool) :
    freedPages s.kmem root va npages doFree = given doFree t (vpn va) (unmapRounds va npages) := by
  have hlook : ∀ key, lookup s.kmem.cell 2 root key = t.get key :=
    lookup_eq h.rep (fun _ hx => h.owned.left.ok_owned hx) h.name
  cases doFree with
  | false => rfl
  | true =>
    simp only [freedPages, hlook, if_true]
    exact map_leafPages ..

/-- `uvmunmap` clears a range that was mapped. -/
theorem IsTable.uvmunmap (h : IsTable M root s t)
    (hfreed : freedPages s.kmem root va.toNat npages.toNat doFree ≤ s.others)
    (hrun : uvmunmap M s.kmem root va.toNat npages.toNat doFree = .ok k') :
    ∃ t', IsTable M root ⟨k', s.others - freedPages s.kmem root va.toNat npages.toNat doFree⟩ t'
      ∧ Cleared s.kmem t k' t' (vpn va.toNat) (unmapRounds va.toNat npages.toNat)
      ∧ va.toNat % PGSIZE = 0 ∧ ∀ j < unmapRounds va.toNat npages.toNat,
        va.toNat + j * 4096 < MAXVA ∧ Removable (t.get (vpn va.toNat + j)) := by
  rw [Vm.uvmunmap] at hrun
  split at hrun
  · cases hrun
  · rename_i hmod
    have hmod : va.toNat % PGSIZE = 0 := not_not.mp hmod
    have hown : Custody M.IsPage s.kmem.toStore (t.nodes
        + given doFree t (vpn va.toNat) (unmapRounds va.toNat npages.toNat)) := by
      rw [← h.freed_eq]
      exact h.owned.mono (add_le_add le_rfl hfreed)
    have hrem : ∀ j < unmapRounds va.toNat npages.toNat,
        va.toNat + j * 4096 < MAXVA ∧ Removable (t.get (vpn va.toNat + j)) := fun j hj =>
      ⟨uvmunmapLoop_below hrun j hj, uvmunmapLoop_mapped h.rep hown h.name hmod hrun j hj⟩
    obtain ⟨k₁, t', hrun₁, hcl, hm⟩ := uvmunmapLoop_ok h.rep hown h.name hmod hrem
    obtain rfl := Except.ok.inj (hrun.symm.trans hrun₁)
    refine ⟨t', ?_, hcl, hmod, hrem⟩
    rw [h.freed_eq] at hfreed ⊢
    exact h.cleared hcl hm hfreed

/-- The entries after a range was unmapped. -/
theorem IsTable.entry_unmapped (h : IsTable M root s t)
    (hend : va.toNat + npages.toNat * PGSIZE < 2 ^ 64)
    (hfreed : freedPages s.kmem root va.toNat npages.toNat doFree ≤ s.others)
    (hrun : Vm.uvmunmap M s.kmem root va.toNat npages.toNat doFree = .ok k') {a : Nat}
    (ha : a < MAXVA) (hmod : a % PGSIZE = 0) :
    if va.toNat ≤ a ∧ a < va.toNat + npages.toNat * PGSIZE
      then (leafEntry s.kmem root a).isSome ∧ leafEntry k' root a = none
      else leafEntry k' root a = leafEntry s.kmem root a := by
  obtain ⟨t', h', hcl, hva, hrem⟩ := h.uvmunmap hfreed hrun
  have hrounds : unmapRounds va.toNat npages.toNat = npages.toNat := by
    grind [unmapRounds, mod_eq_of_lt hend, add_sub_cancel_left]
  rw [hrounds] at hcl hrem
  have hlt : vpn a < NPTE ^ 3 := by
    have ha' : a < 2 ^ 38 := ha
    show a / 4096 < 512 ^ 3
    omega
  have hin : (va.toNat ≤ a ∧ a < va.toNat + npages.toNat * PGSIZE)
      ↔ vpn va.toNat ≤ vpn a ∧ vpn a < vpn va.toNat + npages.toNat := by
    have hva' : va.toNat % 4096 = 0 := hva
    have hmod' : a % 4096 = 0 := hmod
    show (va.toNat ≤ a ∧ a < va.toNat + npages.toNat * 4096)
      ↔ va.toNat / 4096 ≤ a / 4096 ∧ a / 4096 < va.toNat / 4096 + npages.toNat
    omega
  have hentry := h'.leafEntry_eq ha
  rw [hcl.get _ hlt] at hentry
  simp only [hin]
  split
  · rename_i hkey
    obtain ⟨-, hodd, -⟩ := hrem (vpn a - vpn va.toNat) (by omega)
    simp_all [Nat.add_sub_cancel' hkey.1, hkey, h.leafEntry_eq ha, validEntry, hodd]
  · rename_i hkey
    simp_all [hkey, h.leafEntry_eq ha]

end Unmap

/-! ## Whole runs -/

section Run

variable {M : Machine} {root : Nat} {s s' : TableSys} {t : Table}

/-- Pages of other uses changed hands. -/
theorem IsTable.elsewhere {k' : Kmem} {B B' : Multiset Nat} (h : IsTable M root s t)
    (hm : Moves s.kmem.toStore B k'.toStore B') (hB : B ≤ s.others) :
    IsTable M root ⟨k', B' + (s.others - B)⟩ t := by
  have hown := h.owned
  rw [← add_tsub_cancel_of_le hB, add_left_comm] at hown
  refine ⟨h.rep.frame fun x hx => ?_, h.name, ?_⟩
  · exact hown.keeps hm (Multiset.mem_add.mpr (.inl hx))
  · have hown' := hown.moves (hm.add (t.nodes + (s.others - B)))
    rwa [add_left_comm] at hown'

theorem tableStep_isTable {op : TableOp} (h : ∃ t, IsTable M root s t)
    (hstep : tableStep M root s op = some s') : ∃ t, IsTable M root s' t := by
  obtain ⟨t, h⟩ := h
  cases op with
  | walk va =>
    simp only [tableStep] at hstep
    split at hstep
    · rename_i r k hwalk
      cases hstep
      obtain ⟨r', k', t', hwalk', hg, -⟩ := walk_true h.rep h.owned.left h.name (lt_of_walk hwalk)
      obtain ⟨rfl, rfl⟩ := Prod.mk.inj (Except.ok.inj (hwalk.symm.trans hwalk'))
      exact ⟨t', h.becomes hg.becomes⟩
    · cases hstep
  | mappages va size pa perm =>
    simp only [tableStep] at hstep
    split at hstep
    · rename_i done k hmap
      cases hstep
      rw [mappages] at hmap
      split at hmap
      · cases hmap
      · obtain ⟨t', -, hb, -⟩ := h.mappagesLoop hmap
        exact ⟨t', h.becomes hb⟩
    · cases hstep
  | uvmunmap va npages doFree =>
    simp only [tableStep] at hstep
    split at hstep
    · rename_i hfreed
      split at hstep
      · rename_i k hrun
        cases hstep
        obtain ⟨t', h', -⟩ := h.uvmunmap hfreed hrun
        exact ⟨t', h'⟩
      · cases hstep
    · cases hstep
  | kalloc =>
    rcases kalloc_cases s.kmem with ⟨k, he, hk⟩ | ⟨pg, k, he, hm, -⟩
    · simp only [tableStep, he] at hstep
      cases hstep
      refine ⟨t, ?_, h.name, ?_⟩
      · rw [hk]
        exact h.rep
      · rw [hk]
        exact h.owned
    · simp only [tableStep, he] at hstep
      cases hstep
      have h' := h.elsewhere hm (Multiset.zero_le _)
      rw [Multiset.sub_zero, Multiset.singleton_add] at h'
      exact ⟨t, h'⟩
  | kfree pa =>
    simp only [tableStep] at hstep
    split at hstep
    · rename_i hmem
      have hpage : M.IsPage pa := h.owned.ok_owned (Multiset.mem_add.mpr (.inr hmem))
      obtain ⟨k, hrun, hm, -⟩ := kfree_ok (k := s.kmem) hpage
      simp only [hrun] at hstep
      cases hstep
      have h' := h.elsewhere hm (Multiset.singleton_le.mpr hmem)
      rw [zero_add, Multiset.sub_singleton] at h'
      exact ⟨t, h'⟩
    · cases hstep
  | store pa v =>
    simp only [tableStep] at hstep
    split at hstep
    · rename_i hmem
      cases hstep
      have h' := h.elsewhere (Kmem.moves_setPage (Multiset.mem_singleton_self pa) v)
        (Multiset.singleton_le.mpr hmem)
      rw [add_tsub_cancel_of_le (Multiset.singleton_le.mpr hmem)] at h'
      exact ⟨t, h'⟩
    · cases hstep

/-- The root `uvmcreate` returns is an empty table. -/
theorem isTable_uvmcreate {k₀ k₁ : Kmem} {B : Multiset Nat} (hown : Custody M.IsPage k₀.toStore B)
    (hroot : uvmcreate k₀ = (some root, k₁)) : IsTable M root ⟨k₁, B⟩ (.fresh root 2) := by
  rcases kalloc_cases k₀ with ⟨k, he, -⟩ | ⟨pg, k, he, hm, -⟩
  · simp [uvmcreate, he] at hroot
  · simp only [uvmcreate, he, Prod.mk.injEq, some.injEq] at hroot
    obtain ⟨rfl, rfl⟩ := hroot
    have hm' := (hm.trans (Kmem.moves_setPage (Multiset.mem_singleton_self pg)
      (ByteVec.fill PGSIZE 0))).add B
    rw [zero_add] at hm'
    refine ⟨rep_fresh (Function.update_self ..), Trie.name_fresh pg, ?_⟩
    rw [Trie.nodes_fresh]
    exact hown.moves hm'

theorem IsTable.finiteMap (h : IsTable M root s t) : FiniteMap M root s := by
  refine ⟨fun va r k' hwalk => ?_, fun va size pa perm k' hend hrun a ha hmod => ?_,
    fun va size pa perm k' hend hrun => ?_,
    fun va npages doFree k' hend hfreed hrun a ha hmod => h.entry_unmapped hend hfreed hrun ha hmod⟩
  · obtain ⟨r', k₁, t', hwalk', hg, -⟩ := walk_true h.rep h.owned.left h.name (lt_of_walk hwalk)
    obtain ⟨rfl, rfl⟩ := Prod.mk.inj (Except.ok.inj (hwalk.symm.trans hwalk'))
    have h' := h.becomes hg.becomes
    exact leafEntry_congr h.rep h'.rep (fun _ hx => h.owned.left.ok_owned hx)
      (fun _ hx => h'.owned.left.ok_owned hx) h.name h'.name hg.get
  · obtain ⟨f, -, -, hentry⟩ := h.mappages hend hrun
    rw [hentry a ha hmod]
    simp
  · obtain ⟨f, hfmod, hover, hentry⟩ := h.mappages hend hrun
    grind

/-- A page and flags are recovered from the entry made of them. -/
theorem pte_parts {pa flags : Nat} (hmod : pa % PGSIZE = 0) (hpa : pa < 2 ^ 56) (hflags : flags < 1024) :
    PTE2PA (PA2PTE pa ||| flags) = pa ∧ PTE_FLAGS (PA2PTE pa ||| flags) = flags := by
  have hmod' : pa % 4096 = 0 := hmod
  rw [pte_or hflags, PTE2PA, PTE_FLAGS]
  constructor <;> omega

/-- Every page table that is built from an empty root by `walk`,
`mappages` and `uvmunmap` is a finite map, empty at first, for ranges
that end below `2 ^ 64`. -/
theorem table_finiteMap {k₀ k₁ : Kmem} {B : Multiset Nat} {ops : List TableOp}
    (hown : Custody M.IsPage k₀.toStore B) (hroot : uvmcreate k₀ = (some root, k₁))
    (hrun : run (tableStep M root) ⟨k₁, B⟩ ops = some s) :
    (∀ a, leafEntry k₁ root a = none) ∧ FiniteMap M root s
      ∧ ∀ pa flags, pa % PGSIZE = 0 → pa < 2 ^ 56 → flags < 1024 →
        PTE2PA (PA2PTE pa ||| flags) = pa ∧ PTE_FLAGS (PA2PTE pa ||| flags) = flags := by
  have h₁ := isTable_uvmcreate hown hroot
  obtain ⟨t, h⟩ := run_invariant tableStep_isTable ⟨_, h₁⟩ hrun
  refine ⟨fun a => ?_, h.finiteMap, fun pa flags hmod hpa hflags => pte_parts hmod hpa hflags⟩
  rcases lt_or_ge a MAXVA with ha | ha
  · rw [h₁.leafEntry_eq ha, Trie.get_fresh]
    rfl
  · exact leafEntry_above ha

end Run

/-! ## A range that wraps -/

/-- Four free pages. -/
def fourPages : Kmem :=
  ⟨⟨fun _ => ByteVec.fill PGSIZE 0, [0x80002000, 0x80003000, 0x80004000, 0x80005000]⟩, []⟩

theorem fourPages_owned : Custody smallMachine.IsPage fourPages.toStore 0 := by
  refine ⟨?_, ?_⟩
  · rw [add_zero, Multiset.coe_nodup]
    decide
  · intro x hx
    rw [add_zero, Multiset.mem_coe] at hx
    revert x
    decide

/-- One page is mapped, and the table is a finite map. -/
theorem table_finiteMap_one : ∃ s, run (tableStep smallMachine 0x80002000)
      ⟨(uvmcreate fourPages).2, 0⟩ [.mappages 0 4096 0x80005000 2] = some s
    ∧ leafEntry s.kmem 0x80002000 0 = some (mapEntry 0x80005000 2)
    ∧ FiniteMap smallMachine 0x80002000 s := by
  have heval : (run (tableStep smallMachine 0x80002000) ⟨(uvmcreate fourPages).2, 0⟩
      [.mappages 0 4096 0x80005000 2]).any
        (fun s => decide (leafEntry s.kmem 0x80002000 0 = some (mapEntry 0x80005000 2))) = true := by
    decide +kernel
  obtain ⟨s, hrun, hentry⟩ := (Option.any_eq_true ..).mp heval
  have hroot : uvmcreate fourPages = (some 0x80002000, (uvmcreate fourPages).2) := rfl
  exact ⟨s, hrun, of_decide_eq_true hentry, (table_finiteMap fourPages_owned hroot hrun).2.1⟩

/-- With a size that wraps, `mappages` returns 0 after the first page of
the range. -/
theorem mappages_wraps : Custody smallMachine.IsPage fourPages.toStore 0
    ∧ uvmcreate fourPages = (some 0x80002000, (uvmcreate fourPages).2)
    ∧ ∃ k', mappages (uvmcreate fourPages).2 0x80002000 4095 (2 ^ 64 - 1) 0x80005000 2 = .ok (true, k')
      ∧ Overlaps 4096 4095 (2 ^ 64 - 1) ∧ leafEntry k' 0x80002000 4096 = none := by
  have heval : (mappages (uvmcreate fourPages).2 0x80002000 4095 (2 ^ 64 - 1) 0x80005000 2).toOption.any
      (fun r => r.1 && (leafEntry r.2 0x80002000 4096).isNone) = true := by
    decide +kernel
  refine ⟨fourPages_owned, rfl, ?_⟩
  cases hmap : mappages (uvmcreate fourPages).2 0x80002000 4095 (2 ^ 64 - 1) 0x80005000 2 with
  | error e =>
    rw [hmap] at heval
    cases heval
  | ok r =>
    obtain ⟨done, k'⟩ := r
    rw [hmap] at heval
    obtain ⟨rfl, hnone⟩ := (Bool.and_eq_true_iff ..).mp heval
    exact ⟨k', rfl, by decide, isNone_iff_eq_none.mp hnone⟩

end Xv6.Vm
